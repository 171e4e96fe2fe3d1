import AvroIdl.FileTree.Change
import AvroIdl.Proofs.CanonicalPath
import Mathlib.Data.List.DropRight

/-!
# Access to a file through its directory

A path that ends in a name leads to the place of that name in the directory of its parent path, if
there is one. Writing there changes this one place, and whoever finds a directory before finds it
afterwards.
-/
namespace AvroIdl

namespace Path

/-- The names in a text, between its slashes. -/
def names (t : Text) : List Text := (Text.split Byte.slash t).filter fun piece => !piece.isEmpty

theorem pieces_concat (ts : List Text) (last : Text) :
    pieces (ts ++ [last]) = (ts.filter fun piece => !piece.isEmpty) ++ [last] := by
  induction ts with
  | nil => rfl
  | cons t ts ih =>
    obtain ⟨u, us, hu⟩ := List.exists_cons_of_ne_nil (List.append_ne_nil_of_right_ne_nil ts
      (List.cons_ne_nil last []))
    rw [hu] at ih
    rw [List.cons_append, hu, pieces, ih]
    · by_cases ht : t.isEmpty = true <;> simp [ht]
    · simp

/-- A name after a slash is the last element, and the elements before it are names. -/
theorem elements_append_name {before name : Text} (h : IsName name) :
    elements ⟨before ++ Byte.slash :: name⟩ = names before ++ [name] := by
  have hne : names before ++ [name] ≠ [[]] := by
    intro he
    have hlast := congrArg List.getLast? he
    simp [h.1] at hlast
  rw [elements, Text.split_append_cons, Text.split_of_notMem h.2, pieces_concat]
  exact if_neg hne

/-- In a text that does not end in a slash every element is a name. -/
theorem elements_of_last_ne {t : Text} (h : t.getLast? ≠ some Byte.slash) :
    elements ⟨t⟩ = names t := by
  by_cases hmem : Byte.slash ∈ t
  · obtain ⟨⟨u, v⟩, huv⟩ := Option.ne_none_iff_exists'.mp
      (mt Text.splitLast_eq_none_iff.mp (not_not.mpr hmem))
    obtain ⟨rfl, hv⟩ := Text.splitLast_eq_some_iff.mp huv
    have hname : IsName v := by
      refine ⟨?_, hv⟩
      rintro rfl
      simp at h
    rw [elements_append_name hname, names, names, Text.split_append_cons, Text.split_of_notMem hv]
    simp [hname.1]
  · rw [elements, names, Text.split_of_notMem hmem]
    cases t with
    | nil => rfl
    | cons b t => rfl

theorem names_rdropWhile (t : Text) : names (t.rdropWhile (· == Byte.slash)) = names t := by
  induction t using List.reverseRecOn with
  | nil => rfl
  | append_singleton t b ih =>
    by_cases hb : b = Byte.slash
    · subst hb
      rw [List.rdropWhile_concat_pos _ _ _ (by simp), ih]
      simp [names, Text.split_append_cons, Text.split]
    · rw [List.rdropWhile_concat_neg _ _ _ (by simpa using hb)]

/-- A path that says something ends with a name or with a slash. -/
theorem hasName_or_slash {t : Text} (h : t ≠ []) :
    hasName ⟨t⟩ = true ∨ ∃ before, t = before ++ [Byte.slash] := by
  cases hsplit : Text.splitLast Byte.slash t with
  | none =>
    have helements : elements ⟨t⟩ = [t] := by
      rw [elements, Text.split_of_notMem (Text.splitLast_eq_none_iff.mp hsplit)]
      simp [pieces, h]
    left
    simp [hasName, helements, h]
  | some found =>
    obtain ⟨before, name⟩ := found
    obtain ⟨rfl, hname⟩ := Text.splitLast_eq_some_iff.mp hsplit
    cases name with
    | nil => exact .inr ⟨before, rfl⟩
    | cons b name =>
      left
      simp [hasName, elements_append_name ⟨List.cons_ne_nil b name, hname⟩]

/-- The path leads to a name below another path: it ends in a slash and that name, which is one the
system takes as it is, and no zero byte cuts the path. -/
structure Ends (p : Path) (name : Text) : Prop where
  written : ∃ before, p.written = before ++ Byte.slash :: name
  isName : IsName name
  ordinary : name ≠ dot ∧ name ≠ dotDot
  whole : 0 ∉ p.written

section Ends

variable {p : Path} {name : Text}

/-- The parent path is what stands before the slash, or the root. -/
theorem Ends.parent_eq (h : p.Ends name) {before : Text}
    (hp : p.written = before ++ Byte.slash :: name) :
    p.parent = ⟨before.rdropWhile (· == Byte.slash)⟩ ∧
        before.rdropWhile (· == Byte.slash) ≠ [] ∨
      p.parent = ⟨"/"⟩ ∧ before.rdropWhile (· == Byte.slash) = [] := by
  have helements : p.elements = names before ++ [name] := by
    rw [show p = ⟨before ++ Byte.slash :: name⟩ from congrArg Path.mk hp]
    exact elements_append_name h.isName
  have hshorter : p.written.reverse.dropWhile (· != Byte.slash) = Byte.slash :: before.reverse := by
    have hname : ∀ b ∈ name.reverse, (b != Byte.slash) = true := by
      intro b hb
      rw [List.mem_reverse] at hb
      exact bne_iff_ne.mpr fun he => h.isName.2 (he ▸ hb)
    rw [hp, List.reverse_append, List.reverse_cons, List.append_assoc,
      List.dropWhile_append_of_pos hname]
    simp
  have hdrop : (Byte.slash :: before.reverse).dropWhile (· == Byte.slash) =
      before.reverse.dropWhile (· == Byte.slash) := by simp
  have hnonempty : p.elements.isEmpty = false := by simp [helements]
  have hback : before.rdropWhile (· == Byte.slash) =
      (before.reverse.dropWhile (· == Byte.slash)).reverse := rfl
  rw [parent, hnonempty, hshorter, hback]
  simp only [Bool.false_eq_true, if_false, hdrop]
  cases hrest : before.reverse.dropWhile (· == Byte.slash) with
  | nil =>
    have hrooted : p.isRooted = true := by
      have hall : ∀ b ∈ before.reverse, (b == Byte.slash) = true :=
        List.dropWhile_eq_nil_iff.mp hrest
      rw [isRooted, hp]
      cases before with
      | nil => simp
      | cons b before => simpa using hall b (by simp)
    refine .inr ⟨?_, rfl⟩
    rw [hrooted]
    rfl
  | cons b rest => exact .inl ⟨rfl, by simp⟩

/-- Names after the same text have one parent path. -/
theorem Ends.parent_congr {p' : Path} {name' before : Text} (h : p.Ends name) (h' : p'.Ends name')
    (hp : p.written = before ++ Byte.slash :: name)
    (hp' : p'.written = before ++ Byte.slash :: name') : p.parent = p'.parent := by
  rcases h.parent_eq hp with ⟨he, hne⟩ | ⟨he, hnil⟩ <;>
    rcases h'.parent_eq hp' with ⟨he', hne'⟩ | ⟨he', hnil'⟩
  · rw [he, he']
  · exact absurd hnil' hne
  · exact absurd hnil hne'
  · rw [he, he']

theorem Ends.elements_eq (h : p.Ends name) : p.elements = p.parent.elements ++ [name] := by
  obtain ⟨before, hp⟩ := h.written
  have helements : p.elements = names before ++ [name] := by
    rw [show p = ⟨before ++ Byte.slash :: name⟩ from congrArg Path.mk hp]
    exact elements_append_name h.isName
  rw [helements, ← names_rdropWhile before]
  rcases h.parent_eq hp with ⟨he, hne⟩ | ⟨he, hnil⟩
  · have hlast : (before.rdropWhile (· == Byte.slash)).getLast? ≠ some Byte.slash := by
      intro hlast
      have hstop := List.rdropWhile_last_not (· == Byte.slash) before hne
      rw [List.getLast?_eq_getLast_of_ne_nil hne] at hlast
      simp [Option.some.inj hlast] at hstop
    rw [he, elements_of_last_ne hlast]
  · rw [he, hnil]
    rfl

theorem Ends.isRooted_parent (h : p.Ends name) : p.parent.isRooted = p.isRooted := by
  obtain ⟨before, hp⟩ := h.written
  rcases h.parent_eq hp with ⟨he, hne⟩ | ⟨he, hnil⟩
  · obtain ⟨slashes, hslashes⟩ := List.rdropWhile_prefix (· == Byte.slash) before
    obtain ⟨b, rest, hrest⟩ := List.exists_cons_of_ne_nil hne
    rw [hrest] at hslashes
    rw [he, hrest, isRooted, isRooted, hp, ← hslashes]
    rfl
  · have hall := List.rdropWhile_eq_nil_iff.mp hnil
    rw [he, isRooted, isRooted, hp]
    cases before with
    | nil => rfl
    | cons b before =>
      have hb : b = Byte.slash := by simpa using hall b List.mem_cons_self
      rw [hb]
      rfl

/-- The parent path is shorter, not empty, and no zero byte cuts it. -/
theorem Ends.parent_spec (h : p.Ends name) :
    p.parent.written ≠ [] ∧ p.parent.written.length < p.written.length ∧
      0 ∉ p.parent.written := by
  obtain ⟨before, hp⟩ := h.written
  have hbegins := List.rdropWhile_prefix (· == Byte.slash) before
  have hlength := hbegins.length_le
  rcases h.parent_eq hp with ⟨he, hne⟩ | ⟨he, -⟩
  · rw [he]
    refine ⟨hne, by simp [hp]; omega, fun hz => h.whole ?_⟩
    rw [hp]
    exact List.mem_append_left _ (hbegins.subset hz)
  · have hname := List.length_pos_iff.mpr h.isName.1
    rw [he]
    exact ⟨by decide, by simp [hp, Text.ofAscii]; omega, by decide⟩

end Ends

end Path

namespace FileTree

section Walk

variable {t t' : FileTree}

/-- Following more elements goes on where the first ones lead. -/
theorem walk_append {es fs : List Text} (hfs : fs ≠ []) (place : Place) :
    t.walk place (es ++ fs) = t.walk place es >>= fun found => t.walk found.1 fs := by
  induction es generalizing place with
  | nil =>
    obtain ⟨f, fs, rfl⟩ := List.exists_cons_of_ne_nil hfs
    rw [List.nil_append, walk.eq_1 t place]
    cases hnode : t.node? place with
    | none => simp [walk, hnode]; rfl
    | some n => rfl
  | cons e es ih =>
    rw [List.cons_append, walk, walk]
    simp only [ih]
    repeat' split
    all_goals rfl

/-- A name leads from a directory to its place there. -/
theorem walk_name {name : Text} (hname : Path.IsName name)
    (hordinary : name ≠ Path.dot ∧ name ≠ Path.dotDot) {q : Place}
    (hq : t.node? q = some .directory) :
    t.walk q [name] =
      if maxName < name.length then .error .tooLong else t.walk (q ++ [name]) [] := by
  have hskip : ¬(name.isEmpty = true ∨ name = Path.dot) := by
    simpa [List.isEmpty_iff] using And.intro hname.1 hordinary.1
  rw [walk.eq_2, if_pos hq, if_neg hskip, if_neg hordinary.2]

/-- What is found at the end of a walk is the node of that place. -/
theorem node?_of_walk {es : List Text} {place : Place} {found : Place × Node}
    (h : t.walk place es = .ok found) : t.node? found.1 = some found.2 := by
  induction es generalizing place with
  | nil =>
    rw [walk] at h
    split at h
    · cases h
      assumption
    · cases h
  | cons e es ih =>
    rw [walk] at h
    split at h
    · split at h
      · exact ih h
      · split at h
        · exact ih h
        · split at h
          · cases h
          · exact ih h
    · cases h

/-- A directory is found again in a tree that has all directories of the first one. -/
theorem walk_of_directories
    (hkeep : ∀ p, t.node? p = some .directory → t'.node? p = some .directory) {es : List Text}
    {place q : Place} (h : t.walk place es = .ok (q, .directory)) :
    t'.walk place es = .ok (q, .directory) := by
  induction es generalizing place with
  | nil =>
    rw [walk] at h ⊢
    split at h
    · next n hn =>
      cases h
      rw [hkeep _ hn]
    · cases h
  | cons e es ih =>
    rw [walk] at h ⊢
    split at h
    · next hplace =>
      rw [if_pos (hkeep place hplace)]
      repeat' split at h
      · next hskip => rw [if_pos hskip]; exact ih h
      · next hskip hup => rw [if_neg hskip, if_pos hup]; exact ih h
      · cases h
      · next hskip hup hlong => rw [if_neg hskip, if_neg hup, if_neg hlong]; exact ih h
    · cases h

end Walk

section Locate

variable {t : FileTree} {p : Path} {name : Text}

theorem systemPath_of_whole (h : 0 ∉ p.written) : systemPath p = p := by
  have hall : ∀ b ∈ p.written, (b != 0) = true := fun b hb =>
    bne_iff_ne.mpr fun he => h (he ▸ hb)
  rw [systemPath, List.takeWhile_eq_self_iff.mpr hall]

theorem node?_of_locate {place : Place} {n : Node} (h : t.locate p = .ok (place, n)) :
    t.node? place = some n := by
  unfold locate at h
  dsimp only at h
  split at h
  · cases h
  · split at h
    · cases h
    · exact node?_of_walk h

/-- A path that is not too long is followed by way of its parent path. -/
theorem locate_of_ends (h : p.Ends name) (hlength : p.written.length < pathLimit) :
    t.locate p = t.locate p.parent >>= fun found => t.walk found.1 [name] := by
  obtain ⟨hne, hless, hzero⟩ := h.parent_spec
  have hempty : p.isEmpty = false := by
    obtain ⟨before, hp⟩ := h.written
    simp [Path.isEmpty, hp]
  have hparent : p.parent.isEmpty = false := by simpa [Path.isEmpty] using hne
  rw [locate, locate, systemPath_of_whole h.whole, systemPath_of_whole hzero]
  simp only [hempty, hparent, Bool.false_eq_true, if_false, h.isRooted_parent]
  rw [if_neg (Nat.not_le.mpr hlength), if_neg (Nat.not_le.mpr (hless.trans hlength)), h.elements_eq,
    walk_append (List.cons_ne_nil name [])]

theorem locate_of_too_long (h : p.Ends name) (hlength : pathLimit ≤ p.written.length) :
    t.locate p = .error .tooLong := by
  have hempty : p.isEmpty = false := by
    obtain ⟨before, hp⟩ := h.written
    simp [Path.isEmpty, hp]
  rw [locate, systemPath_of_whole h.whole]
  simp [hempty, hlength]

end Locate

/-- The system takes the path and the name, which have a greatest length. -/
def Allows (p : Path) (name : Text) : Prop :=
  p.written.length < pathLimit ∧ name.length ≤ maxName

section Write

variable {t t' : FileTree} {p : Path} {name contents : Text} {q : Place}

/-- What a name leads to in a directory that was found. -/
theorem locate_of_node? (h : p.Ends name) (hallows : Allows p name)
    (hq : t.locate p.parent = .ok (q, .directory)) {n : Node}
    (hn : t.node? (q ++ [name]) = some n) :
    t.locate p = .ok (q ++ [name], n) := by
  have hwalk := walk_name h.isName h.ordinary (node?_of_locate hq)
  rw [if_neg (Nat.not_lt.mpr hallows.2), walk.eq_1, hn] at hwalk
  rw [locate_of_ends h hallows.1, hq]
  exact hwalk

/-- Writing to a path where nothing is found makes a file in the directory of the parent path. -/
theorem write?_of_missing (h : p.Ends name) (hmissing : t.locate p = .error .missing) :
    t.write? p contents = match t.locate p.parent with
      | .ok (q, .directory) => some (t.put (q ++ [name]) (.file contents))
      | _ => none := by
  have hparent : p.parent.isEmpty = false := by simpa [Path.isEmpty] using h.parent_spec.1
  have hlast : p.elements.getLast? = some name := by simp [h.elements_eq]
  have hname : ¬(name.isEmpty = true ∨ name = Path.dot ∨ name = Path.dotDot) := by
    simpa [List.isEmpty_iff] using And.intro h.isName.1 h.ordinary
  rw [write?, hmissing]
  simp only [systemPath_of_whole h.whole, hparent, hlast, Bool.false_eq_true, if_false]
  split
  · next hq heq =>
    cases heq
    rw [hq, if_neg hname]
  · next hno =>
    split
    · next q hq => exact absurd rfl (hno q name hq)
    · rfl

/-- Writing to a name puts the file to its place in the directory of the parent path. -/
theorem write?_eq_some (h : p.Ends name) (hw : t.write? p contents = some t') :
    Allows p name ∧ ∃ q, t.locate p.parent = .ok (q, .directory) ∧
      t.node? (q ++ [name]) ≠ some .directory ∧ t' = t.put (q ++ [name]) (.file contents) := by
  have hlength : p.written.length < pathLimit := by
    by_contra hlong
    rw [write?, locate_of_too_long h (Nat.not_lt.mp hlong)] at hw
    cases hw
  have hlocate := locate_of_ends h hlength (t := t)
  cases hq : t.locate p.parent with
  | error a =>
    -- Nothing is found below a path that leads nowhere.
    simp only [hq, bind, Except.bind] at hlocate
    cases a with
    | tooLong =>
      rw [write?, hlocate] at hw
      cases hw
    | missing =>
      rw [write?_of_missing h hlocate, hq] at hw
      cases hw
  | ok found =>
    obtain ⟨q, n⟩ := found
    simp only [hq, bind, Except.bind] at hlocate
    cases n with
    | file old =>
      rw [walk.eq_2, node?_of_locate hq, if_neg (by simp)] at hlocate
      rw [write?_of_missing h hlocate, hq] at hw
      cases hw
    | directory =>
      rw [walk_name h.isName h.ordinary (node?_of_locate hq)] at hlocate
      split at hlocate
      · rw [write?, hlocate] at hw
        cases hw
      · next hname =>
        refine ⟨⟨hlength, Nat.not_lt.mp hname⟩, q, rfl, ?_⟩
        rw [walk.eq_1] at hlocate
        cases hnode : t.node? (q ++ [name]) with
        | none =>
          rw [hnode] at hlocate
          rw [write?_of_missing h hlocate, hq] at hw
          exact ⟨by simp, (Option.some.inj hw).symm⟩
        | some n =>
          rw [hnode] at hlocate
          rw [write?, hlocate] at hw
          cases n with
          | directory => cases hw
          | file old => exact ⟨by simp, (Option.some.inj hw).symm⟩

/-- Other places keep their nodes when something is put to a place. -/
theorem node?_put_of_ne {place other : Place} (h : other ≠ place) (n : Node) :
    (t.put place n).node? other = t.node? other := by
  have hlookup : (t.nodes.filter fun e => e.1 != place).lookup other = t.nodes.lookup other := by
    induction t.nodes with
    | nil => rfl
    | cons entry nodes ih =>
      obtain ⟨p, m⟩ := entry
      by_cases hp : p = place
      · have hother : (other == p) = false := by simpa [hp] using h
        rw [List.filter_cons_of_neg (by simp [hp]), List.lookup_cons, hother, ih]
      · rw [List.filter_cons_of_pos (by simpa using hp), List.lookup_cons, List.lookup_cons, ih]
  have hother : (other == place) = false := by simpa using h
  simp [node?, put, List.lookup_cons, hother, hlookup]

/-- A directory is found after a file was put to a place that was none. -/
theorem locate_put_file {d : Path} {place : Place} (h : t.locate d = .ok (q, .directory))
    (hplace : t.node? place ≠ some .directory) :
    (t.put place (.file contents)).locate d = .ok (q, .directory) := by
  have hkeep : ∀ other, t.node? other = some .directory →
      (t.put place (.file contents)).node? other = some .directory := by
    intro other hother
    rw [node?_put_of_ne]
    · exact hother
    · rintro rfl
      exact hplace hother
  unfold locate at h ⊢
  dsimp only at h ⊢
  split at h
  · cases h
  · next hempty =>
    split at h
    · cases h
    · next hlong =>
      rw [if_neg hempty, if_neg hlong]
      exact walk_of_directories hkeep h

/-- A directory that is found need not be made. -/
theorem createDirectories_of_locate {d : Path} (h : t.locate d = .ok (q, .directory)) :
    t.createDirectories d = (t, none) := by
  have hempty : d.isEmpty = false := by
    by_contra he
    have hd : d = ⟨[]⟩ := by
      cases d
      simpa [Path.isEmpty] using he
    rw [hd] at h
    cases h
  rw [createDirectories, hempty, h]
  rfl

end Write

end FileTree

end AvroIdl
