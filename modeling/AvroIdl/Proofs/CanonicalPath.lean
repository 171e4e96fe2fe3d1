import AvroIdl.FileTree

/-!
# Canonical paths of files

The canonical path of a file leads from the root to its place and is written without repeated
slashes. A session compares plain paths, so for files it compares the canonical paths themselves.
-/
namespace AvroIdl

namespace Path

/-- What a file or a directory can be called. -/
def IsName (e : Text) : Prop := e ≠ [] ∧ Byte.slash ∉ e

theorem pieces_of_ne_nil {ts : List Text} (h : ∀ t ∈ ts, t ≠ []) : pieces ts = ts := by
  induction ts with
  | nil => rfl
  | cons t ts ih =>
    have hrest : pieces ts = ts := ih fun x hx => h x (List.mem_cons_of_mem t hx)
    cases ts with
    | nil => rfl
    | cons u us =>
      have ht : t.isEmpty = false := by simpa using h t List.mem_cons_self
      simp [pieces, ht, hrest]

theorem pieces_subset (ts : List Text) : pieces ts ⊆ ts := by
  induction ts with
  | nil => simp [pieces]
  | cons t ts ih =>
    cases ts with
    | nil => simp [pieces]
    | cons u us =>
      rw [pieces]
      split
      · exact List.subset_cons_of_subset t ih
      · exact List.cons_subset_cons t ih
      · simp

theorem slash_notMem_of_mem_elements {p : Path} {e : Text} (h : e ∈ p.elements) :
    Byte.slash ∉ e := by
  unfold elements at h
  dsimp only at h
  split at h
  · cases h
  · exact Text.notMem_of_mem_split (pieces_subset _ h)

/-- The path from the root that is made of names says these names. -/
theorem elements_ofElements {names : List Text} (h : ∀ e ∈ names, IsName e) :
    (ofElements true names).elements = names := by
  have hwritten : (ofElements true names).written = [] ++ Byte.slash :: Text.join "/" names := rfl
  unfold elements
  rw [hwritten, Text.split_append_cons]
  cases names with
  | nil => decide
  | cons name names =>
    have hsplit : Text.split Byte.slash (Text.join "/" (name :: names)) = name :: names :=
      Text.split_join (by simp) fun t ht => (h t ht).2
    have hpieces := pieces_of_ne_nil fun t ht => (h t ht).1
    have hname : name ≠ [] := (h name List.mem_cons_self).1
    rw [hsplit]
    simp only [Text.split, List.singleton_append, pieces, List.isEmpty_nil, if_true, hpieces]
    simp [hname]

theorem plain_ofElements {names : List Text} (h : ∀ e ∈ names, IsName e) :
    (ofElements true names).plain = ofElements true names := by
  have hrooted : (ofElements true names).isRooted = true := rfl
  rw [plain, elements_ofElements h, hrooted]

end Path

namespace FileTree

/-- A tree whose working directory is called by names. -/
def Placed (t : FileTree) : Prop := ∀ e ∈ t.current, Path.IsName e

/-- Whoever starts at names and follows elements without slashes arrives at names. -/
theorem isName_of_walk {t : FileTree} {es : List Text} {place : Place} {found : Place × Node}
    (hplace : ∀ e ∈ place, Path.IsName e) (hes : ∀ e ∈ es, Byte.slash ∉ e)
    (h : t.walk place es = .ok found) : ∀ e ∈ found.1, Path.IsName e := by
  induction es generalizing place with
  | nil =>
    rw [walk] at h
    split at h
    · cases h
      exact hplace
    · cases h
  | cons e es ih =>
    have hrest : ∀ x ∈ es, Byte.slash ∉ x := fun x hx => hes x (List.mem_cons_of_mem e hx)
    rw [walk] at h
    split at h
    · split at h
      · exact ih hplace hrest h
      · next hdot =>
        split at h
        · exact ih (fun x hx => hplace x (List.dropLast_subset _ hx)) hrest h
        · split at h
          · cases h
          · refine ih (fun x hx => ?_) hrest h
            rcases List.mem_append.mp hx with hx | hx
            · exact hplace x hx
            · have hempty : e ≠ [] := fun he => hdot (.inl (by simp [he]))
              rw [List.mem_singleton.mp hx]
              exact ⟨hempty, hes e List.mem_cons_self⟩
    · cases h

theorem plain_canonical {t : FileTree} (ht : t.Placed) {p : Path} (h : t.isFile p = true) :
    (t.canonical p).plain = t.canonical p := by
  obtain ⟨found, hfound⟩ : ∃ found, t.locate p = .ok found := by
    unfold isFile read? at h
    split at h
    · exact ⟨_, ‹_›⟩
    · cases h
  have hcanonical : t.canonical p = pathTo found.1 := by
    rw [canonical, hfound]
  have hnames : ∀ e ∈ found.1, Path.IsName e := by
    unfold locate at hfound
    dsimp only at hfound
    split at hfound
    · cases hfound
    · split at hfound
      · cases hfound
      · refine isName_of_walk ?_ (fun e he => Path.slash_notMem_of_mem_elements he) hfound
        split
        · simp
        · exact ht
  rw [hcanonical]
  exact Path.plain_ofElements hnames

end FileTree

end AvroIdl
