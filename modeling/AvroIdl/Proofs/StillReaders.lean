import AvroIdl.Proofs.ReaderSteps

/-!
# Readers that take no comments

Most readers leave the documentation comments alone: none of those for values, types, annotations
and imports takes any, wherever it starts and whether or not it fails.
-/
namespace AvroIdl

namespace Reader

variable {α β : Type}

/-- The reader takes no comment. -/
def Still (x : Reader α) : Prop :=
  ∀ c, (x.run c).2.docs = c.docs ∧ (x.run c).2.used = c.used

section Still

variable {x : Reader α} {f : α → Reader β}

theorem still_pure (a : α) : Still (pure a) := fun _ => ⟨rfl, rfl⟩

theorem Still.bind (hx : Still x) (hf : ∀ a, Still (f a)) : Still (x >>= f) := by
  intro c
  obtain ⟨hdocs, hused⟩ := hx c
  obtain ⟨hdocs', hused'⟩ := hf (x.run c).1 (x.run c).2
  exact ⟨hdocs'.trans hdocs, hused'.trans hused⟩

theorem next_docs (c : Cursor) : c.next.docs = c.docs ∧ c.next.used = c.used := by
  unfold Cursor.next
  split <;> exact ⟨rfl, rfl⟩

theorem fail_docs (c : Cursor) (p : SyntaxProblem) :
    (c.fail p).docs = c.docs ∧ (c.fail p).used = c.used := by
  unfold Cursor.fail
  split <;> exact ⟨rfl, rfl⟩

theorem still_get {f : Cursor → Reader α} (hf : ∀ c, Still (f c)) : Still (get >>= f) :=
  fun c => hf c c

theorem still_steps : Sequential @Still where
  of_pure := still_pure
  bind := Still.bind
  of_get _ := still_get
  of_next c := next_docs c
  of_fail _ c := fail_docs c _

theorem still_manyWithin {test : Cursor → Bool} (hx : Still x) (steps : Nat) :
    Still (manyWithin test x steps) := by
  induction steps with
  | zero => exact still_pure _
  | succ steps ih =>
    exact still_get fun _ =>
      of_ite (hx.bind fun _ => ih.bind fun _ => still_pure _) (still_pure _)

theorem still_separatedWithin (hx : Still x) (steps : Nat) : Still (separatedWithin x steps) := by
  induction steps with
  | zero => exact still_pure _
  | succ steps ih =>
    exact hx.bind fun _ => (still_steps.of_accept _).bind fun _ =>
      of_ite (ih.bind fun _ => still_pure _) (still_pure _)

theorem still : Compositional @Still where
  toSequential := still_steps
  of_many _ _ _ hx := still_get fun _ => still_manyWithin hx _
  of_separated hx := still_get fun _ => still_separatedWithin hx _

end Still

end Reader

end AvroIdl
