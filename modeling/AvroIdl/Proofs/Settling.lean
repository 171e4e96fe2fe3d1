import AvroIdl.Proofs.ReadShape
import Mathlib.Data.List.Forall2

/-!
# Readings that settle

A reader is given a number of levels. Its reading of a value settles if from some number on it
always gives the same result, and with fewer levels fails for no reason but the nesting. The rules
below follow the readers from a type to lists of branches, fields and types.
-/
namespace AvroIdl.Document

variable {α β : Type}

/-- With enough levels the reader gives the result, and otherwise it finds the value too deep. -/
def Settles (read : Nat → Outcome α) (a : α) : Prop :=
  ∃ depth, ∀ levels, read levels = if levels < depth then .error [.tooDeep] else .ok a

theorem settles_ok (a : α) : Settles (fun _ => .ok a) a := ⟨0, by simp⟩

theorem Settles.bind {x : Nat → Outcome α} {f : Nat → α → Outcome β} {a : α} {b : β}
    (hx : Settles x a) (hf : Settles (fun levels => f levels a) b) :
    Settles (fun levels => x levels >>= f levels) b := by
  obtain ⟨d, hd⟩ := hx
  obtain ⟨d', hd'⟩ := hf
  refine ⟨max d d', fun levels => ?_⟩
  have hstep := hd' levels
  dsimp only at hstep ⊢
  rw [hd]
  by_cases h : levels < d
  · have hmax : levels < max d d' := by omega
    rw [if_pos h, if_pos hmax]
    rfl
  · rw [if_neg h]
    refine Eq.trans hstep ?_
    by_cases h' : levels < d'
    · have hmax : levels < max d d' := by omega
      rw [if_pos h', if_pos hmax]
    · have hmax : ¬levels < max d d' := by omega
      rw [if_neg h', if_neg hmax]

/-- A reader that takes one level for itself. -/
theorem Settles.succ {read x : Nat → Outcome α} {a : α} (hx : Settles x a)
    (hzero : read 0 = .error [.tooDeep]) (hsucc : ∀ levels, read (levels + 1) = x levels) :
    Settles read a := by
  obtain ⟨d, hd⟩ := hx
  refine ⟨d + 1, fun levels => ?_⟩
  cases levels with
  | zero => simpa using hzero
  | succ levels => simp [hsucc, hd]

/-- A reader that is given one level less. -/
theorem Settles.pred {x : Nat → Outcome α} {a : α} (hx : Settles x a) :
    Settles (fun levels => x (levels - 1)) a := by
  obtain ⟨d, hd⟩ := hx
  cases d with
  | zero => exact ⟨0, fun levels => by simp [hd]⟩
  | succ d =>
    refine ⟨d + 2, fun levels => ?_⟩
    simp only [hd]
    by_cases h : levels < d + 2
    · rw [if_pos h, if_pos (by omega)]
    · rw [if_neg h, if_neg (by omega)]

theorem Settles.at_levels {read : Nat → Outcome α} {a : α} (h : Settles read a) (levels : Nat) :
    read levels = .error [.tooDeep] ∨ read levels = .ok a := by
  obtain ⟨depth, hread⟩ := h
  rw [hread]
  split
  · exact .inl rfl
  · exact .inr rfl

abbrev SettlesAt (enclosing : Option Text) (j : Json) (c : Converted) : Prop :=
  Settles (fun levels => readSchema true levels enclosing j) c

theorem settlesAt_string {enclosing : Option Text} {name : Text} :
    SettlesAt enclosing (.string name) ⟨readName enclosing name [], []⟩ :=
  (settles_ok _).succ (readSchema_zero ..) fun levels =>
    readSchema_string true levels enclosing name

theorem settles_readBranches {enclosing : Option Text} {js : List Json} {cs : List Converted}
    (h : List.Forall₂ (SettlesAt enclosing) js cs) {seen : List Text}
    (hunion : ∀ c ∈ cs, c.schema.isUnion = false)
    (hkeys : Unseen (fun c : Converted => c.schema.branchKey) seen cs) :
    Settles (fun levels => readBranches (readSchema true levels enclosing) seen js)
      (cs.map (·.schema), cs.flatMap (·.types)) := by
  induction h generalizing seen with
  | nil => exact settles_ok _
  | @cons j c js cs hj _ ih =>
    obtain ⟨hu, hunion⟩ := List.forall_mem_cons.mp hunion
    obtain ⟨hnew, hkeys⟩ := hkeys.of_cons
    refine Settles.bind hj ?_
    have hnew' : seen.contains c.schema.branchKey = false := by simpa using hnew
    simp only [hu, hnew']
    exact (ih hunion hkeys).bind (settles_ok _)

theorem settlesAt_array {enclosing : Option Text} {js : List Json} {cs : List Converted}
    (h : List.Forall₂ (SettlesAt enclosing) js cs) (hunion : ∀ c ∈ cs, c.schema.isUnion = false)
    (hkeys : Unseen (fun c : Converted => c.schema.branchKey) [] cs) :
    SettlesAt enclosing (.array js)
      ⟨.compound (.union false) (cs.map (·.schema)) {}, cs.flatMap (·.types)⟩ := by
  have hread : Settles (fun levels => readBranches (readSchema true levels enclosing) [] js >>=
      fun p => .ok (⟨.compound (.union false) p.1 {}, p.2⟩ : Converted)) _ :=
    (settles_readBranches h hunion hkeys).bind (settles_ok _)
  exact hread.succ (readSchema_zero ..) fun levels => readSchema_array true levels enclosing js

theorem settles_readTypes {enclosing : Option Text} {js : List Json} {cs : List Converted}
    (h : List.Forall₂ (SettlesAt enclosing) js cs) :
    Settles (fun levels => readTypes (readSchema true levels enclosing) js)
      (cs.map (·.schema), cs.flatMap (·.types)) := by
  induction h with
  | nil => exact settles_ok _
  | cons hj _ ih => exact Settles.bind hj (ih.bind (settles_ok _))

def SettlesField (enclosing : Option Text) (j : Json) (p : Field × List Schema) : Prop :=
  ∃ ms : Members, j = .object ms ∧ ms.get? "name" = some (.string p.1.name) ∧
    Settles (fun levels => readField (readSchema true levels enclosing) p.1.name ms) p

theorem settles_readFields {enclosing : Option Text} {js : List Json}
    {ps : List (Field × List Schema)} (h : List.Forall₂ (SettlesField enclosing) js ps)
    (hnames : (ps.map (·.1.name)).Nodup) :
    Settles (fun levels => readFields (readSchema true levels enclosing) (.array js))
      (ps.map (·.1), ps.flatMap (·.2)) := by
  have hlist : ∀ seen : List Text, Unseen (fun p : Field × List Schema => p.1.name) seen ps →
      Settles (fun levels => readFieldList (readSchema true levels enclosing) seen js)
        (ps.map (·.1), ps.flatMap (·.2)) := by
    clear hnames
    induction h with
    | nil => exact fun _ _ => settles_ok _
    | @cons j p js ps hj _ ih =>
      intro seen hunseen
      obtain ⟨hnew, hrest⟩ := hunseen.of_cons
      obtain ⟨ms, rfl, hname, hread⟩ := hj
      have hnew' : seen.contains p.1.name = false := by simpa using hnew
      simp only [readFieldList, hname, hnew']
      exact hread.bind ((ih _ hrest).bind (settles_ok _))
  exact hlist [] ⟨hnames, by simp⟩

end AvroIdl.Document
