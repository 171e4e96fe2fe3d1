import AvroIdl.Proofs.AcceptedUnit
import AvroIdl.Proofs.ReaderSteps

/-!
# The end of the tokens

No reader passes the end of the file, and what a token list holds after it makes no difference to
any of them: not to the value, not to the failure and not to where the reading stops. The steps that
a loop may take are counted by the tokens, so there are more of them when tokens are added. They are
never used, since every part of a loop passes a token or fails.
-/
namespace AvroIdl

namespace Reader

variable {α β : Type}

/-- The reader stops before the end of the file at the latest, and does not see what is after it. -/
structure Bounded (x : Reader α) : Prop where
  ahead : ∀ c, c.HasEnd → (x.run c).2.HasEnd
  shrinks : ∀ c, (x.run c).2.rest.length ≤ c.rest.length
  unseen : ∀ c more, c.HasEnd → x.run (c.extend more) = ((x.run c).1, (x.run c).2.extend more)

section Bounded

variable {x : Reader α} {f : α → Reader β}

theorem bounded_pure (a : α) : Bounded (pure a) :=
  ⟨fun _ h => h, fun _ => Nat.le_refl _, fun _ _ _ => rfl⟩

theorem Bounded.bind (hx : Bounded x) (hf : ∀ a, Bounded (f a)) : Bounded (x >>= f) where
  ahead c h := (hf _).ahead _ (hx.ahead c h)
  shrinks c := ((hf _).shrinks _).trans (hx.shrinks c)
  unseen c more h := by
    rw [StateT.run_bind, hx.unseen c more h]
    exact (hf _).unseen _ more (hx.ahead c h)

theorem bounded_get {f : Cursor → Reader α} (hlooks : Looks f) (hf : ∀ c, Bounded (f c)) :
    Bounded (get >>= f) where
  ahead c h := (hf c).ahead c h
  shrinks c := (hf c).shrinks c
  unseen c more h := by
    change (f (c.extend more)).run (c.extend more) = _
    rw [hlooks c more h]
    exact (hf c).unseen c more h

theorem length_next_le (c : Cursor) : c.next.rest.length ≤ c.rest.length := by
  unfold Cursor.next
  split
  · exact Nat.le_refl _
  · simp

theorem next_extend {c : Cursor} (h : c.HasEnd) (more : List Token) :
    (c.extend more).next = c.next.extend more := by
  obtain ⟨t, ts, hr, -⟩ := h.rest_eq_cons
  simp only [Cursor.next, looks_atEnd c more h, current_extend h]
  split
  · rfl
  · simp [Cursor.extend, hr]

theorem bounded_next : Bounded (modify Cursor.next) where
  ahead _ h := hasEnd_next h
  shrinks c := length_next_le c
  unseen c more h := by
    change (PUnit.unit, (c.extend more).next) = _
    rw [next_extend h]
    rfl

theorem rest_fail (c : Cursor) (p : SyntaxProblem) : (c.fail p).rest = c.rest := by
  unfold Cursor.fail
  split <;> rfl

theorem bounded_fail {p : Cursor → SyntaxProblem} (hlooks : Looks p) :
    Bounded (modify fun c => c.fail (p c)) where
  ahead c h := by
    change (c.fail (p c)).HasEnd
    rwa [Cursor.HasEnd, rest_fail]
  shrinks c := (congrArg List.length (rest_fail c (p c))).le
  unseen c more h := by
    change (PUnit.unit, (c.extend more).fail (p (c.extend more))) = _
    rw [hlooks c more h, Cursor.fail, current_extend h]
    change (PUnit.unit, if c.failure.isSome = true then _ else _) =
      (PUnit.unit, (if c.failure.isSome = true then _ else _ : Cursor).extend more)
    split <;> rfl

theorem bounded_steps : Sequential @Bounded where
  of_pure := bounded_pure
  bind := Bounded.bind
  of_get := bounded_get
  of_next := bounded_next
  of_fail := bounded_fail

theorem bounded_takeDoc (t : Token) : Bounded (takeDoc t) where
  ahead c h := by
    obtain ⟨doc, used, hrun⟩ := takeDoc_run t c
    rw [hrun]
    exact h
  shrinks c := by
    obtain ⟨doc, used, hrun⟩ := takeDoc_run t c
    rw [hrun]
  unseen c more h := by
    have hdocs : (c.extend more).docs = c.docs := rfl
    have hused : (c.extend more).used = c.used := rfl
    simp only [takeDoc, StateT.run_bind, StateT.run_get, pure_bind, hdocs, hused]
    cases t.doc with
    | none => rfl
    | some i =>
      cases hd : c.docs[i]? with
      | none =>
        simp only [hd]
        rfl
      | some d =>
        simp only [hd]
        split <;> rfl

section Loops

variable {test : Cursor → Bool}

theorem bounded_manyWithin (hlooks : Looks test) (hx : Bounded x) (steps : Nat) :
    Bounded (manyWithin test x steps) := by
  induction steps with
  | zero => exact bounded_pure _
  | succ steps ih =>
    refine bounded_get (fun c more h => by rw [hlooks c more h]) fun _ => of_ite ?_ (bounded_pure _)
    exact hx.bind fun _ => ih.bind fun _ => bounded_pure _

theorem bounded_separatedWithin (hx : Bounded x) (steps : Nat) :
    Bounded (separatedWithin x steps) := by
  induction steps with
  | zero => exact bounded_pure _
  | succ steps ih =>
    exact hx.bind fun _ => (bounded_steps.of_accept _).bind fun _ =>
      of_ite (ih.bind fun _ => bounded_pure _) (bounded_pure _)

theorem manyWithin_run (steps : Nat) (c : Cursor) : (manyWithin test x (steps + 1)).run c =
    if test c = true then
      ((x.run c).1 :: ((manyWithin test x steps).run (x.run c).2).1,
        ((manyWithin test x steps).run (x.run c).2).2)
    else ([], c) := by
  change ((if test c = true then _ else _) : Reader (List α)).run c = _
  split <;> rfl

theorem manyWithin_run_of_not_test {c : Cursor} (h : test c = false) (steps : Nat) :
    (manyWithin test x steps).run c = ([], c) := by
  cases steps with
  | zero => rfl
  | succ steps => rw [manyWithin_run, if_neg (by simp [h])]

/-- More steps than tokens make no difference. -/
theorem manyWithin_enough (hx : Bounded x) (hstop : ∀ c, c.failure ≠ none → test c = false)
    (hadvances : Advances test x) {steps steps' : Nat} {c : Cursor} (hend : c.HasEnd)
    (h : c.rest.length < steps) (h' : c.rest.length < steps') :
    (manyWithin test x steps).run c = (manyWithin test x steps').run c := by
  induction steps generalizing steps' c with
  | zero => exact absurd h (Nat.not_lt_zero _)
  | succ steps ih =>
    obtain ⟨steps', rfl⟩ := Nat.exists_eq_succ_of_ne_zero (Nat.ne_zero_of_lt h')
    rw [manyWithin_run, manyWithin_run]
    split
    · rename_i htest
      suffices hmore : (manyWithin test x steps).run (x.run c).2 =
          (manyWithin test x steps').run (x.run c).2 by rw [hmore]
      rcases hadvances c htest hend with hfailed | hless
      · have hdone := hstop _ hfailed
        rw [manyWithin_run_of_not_test hdone, manyWithin_run_of_not_test hdone]
      · exact ih (hx.ahead c hend) (by omega) (by omega)
    · rfl

theorem separatedWithin_run (steps : Nat) (c : Cursor) :
    (separatedWithin x (steps + 1)).run c =
      if (x.run c).2.isAt (.mark .comma) = true then
        ((x.run c).1 :: ((separatedWithin x steps).run (x.run c).2.next).1,
          ((separatedWithin x steps).run (x.run c).2.next).2)
      else ([(x.run c).1], (x.run c).2) := by
  change (accept (.mark .comma) >>= fun b =>
    if b = true then separatedWithin x steps >>= fun as => pure ((x.run c).1 :: as)
    else pure [(x.run c).1]).run (x.run c).2 = _
  rw [StateT.run_bind]
  cases h : (x.run c).2.isAt (.mark .comma) with
  | true =>
    rw [accept_run_of_isAt h]
    rfl
  | false =>
    rw [accept_run_of_not_isAt h]
    rfl

theorem length_next_lt {c : Cursor} (h : c.current.kind ≠ .endOfFile) :
    c.next.rest.length < c.rest.length := by
  rw [(rest_eq_cons h).1, List.length_cons]
  exact Nat.lt_succ_self _

/-- More steps than tokens make no difference, since there is a comma between two parts. -/
theorem separatedWithin_enough (hx : Bounded x) {steps steps' : Nat} {c : Cursor}
    (hend : c.HasEnd) (h : c.rest.length < steps) (h' : c.rest.length < steps') :
    (separatedWithin x steps).run c = (separatedWithin x steps').run c := by
  induction steps generalizing steps' c with
  | zero => exact absurd h (Nat.not_lt_zero _)
  | succ steps ih =>
    obtain ⟨steps', rfl⟩ := Nat.exists_eq_succ_of_ne_zero (Nat.ne_zero_of_lt h')
    rw [separatedWithin_run, separatedWithin_run]
    split
    · rename_i hcomma
      have hpart := hx.shrinks c
      have hless := length_next_lt (c := (x.run c).2) (by simp [kind_of_isAt hcomma])
      rw [ih (hasEnd_next (hx.ahead c hend)) (by omega) (by omega : _ < steps')]
    · rfl

theorem length_extend (c : Cursor) (more : List Token) :
    c.rest.length ≤ (c.extend more).rest.length := by
  simp [Cursor.extend]

/-- A loop that takes as many steps as there are tokens. -/
theorem bounded_of_enough {within : Nat → Reader α} (hwithin : ∀ steps, Bounded (within steps))
    (henough : ∀ {steps steps' c}, c.HasEnd → c.rest.length < steps → c.rest.length < steps' →
      (within steps).run c = (within steps').run c) :
    Bounded (get >>= fun c => within (c.rest.length + 1)) where
  ahead c h := (hwithin _).ahead c h
  shrinks c := (hwithin _).shrinks c
  unseen c more h := by
    have hlength := length_extend c more
    change (within ((c.extend more).rest.length + 1)).run (c.extend more) = _
    rw [(hwithin _).unseen c more h,
      henough h (by omega : c.rest.length < (c.extend more).rest.length + 1)
        (Nat.lt_succ_self c.rest.length)]
    rfl

theorem bounded : Compositional @Bounded where
  toSequential := bounded_steps
  of_many hlooks hstop hadvances hx := bounded_of_enough (bounded_manyWithin hlooks hx)
    (manyWithin_enough hx hstop hadvances)
  of_separated hx := bounded_of_enough (bounded_separatedWithin hx) (separatedWithin_enough hx)

end Loops

/-- What was read ahead may be read again. -/
theorem bounded_again {y z : Reader β} {w : Token → α → Reader β} {k : Token.Kind}
    (hx : Bounded x) (hy : Bounded y) (hw : ∀ t a, Bounded (w t a)) (hz : Bounded z) :
    Bounded (do
      let start ← get
      let first ← peek
      let a ← x
      let c ← get
      if c.failure.isSome = true then y
      else do
        let b ← isAt k
        if b = true then w first a
        else do
          set start
          z) where
  ahead c h := by
    rw [again_run]
    split
    · exact hy.ahead _ (hx.ahead c h)
    split
    · exact (hw _ _).ahead _ (hx.ahead c h)
    · exact hz.ahead c h
  shrinks c := by
    rw [again_run]
    split
    · exact (hy.shrinks _).trans (hx.shrinks c)
    split
    · exact ((hw _ _).shrinks _).trans (hx.shrinks c)
    · exact hz.shrinks c
  unseen c more h := by
    have hfailure (d : Cursor) : (d.extend more).failure = d.failure := rfl
    rw [again_run, again_run, hx.unseen c more h, current_extend h]
    simp only [hfailure, looks_isAt k _ more (hx.ahead c h)]
    split
    · exact hy.unseen _ more (hx.ahead c h)
    split
    · exact (hw _ _).unseen _ more (hx.ahead c h)
    · exact hz.unseen c more h

theorem bounded_conclude (b : SourceUnit.Body) : Bounded (conclude b) := by
  refine bounded_get (fun c more h => ?_) fun c => of_ite ?_ (bounded_pure _)
  · simp only [looks_atEnd c more h]
    rfl
  · exact (bounded_steps.of_failExpecting _).bind fun _ => bounded_pure _

theorem bounded_sourceUnit : Bounded sourceUnit := by
  rw [sourceUnit_eq]
  refine bounded_again bounded.of_annotations (bounded_pure _) (fun first as => ?_) ?_
  · exact (bounded_takeDoc first).bind fun doc =>
      (bounded.of_protocol bounded_takeDoc _).bind bounded_conclude
  · exact (bounded.of_schemas bounded_takeDoc).bind bounded_conclude

end Bounded

end Reader

namespace SourceUnit

/-- Nothing after the end of the file makes a difference. -/
theorem ofTokens_append {front : List Token} {last : Token} (hlast : last.kind = .endOfFile)
    (beyond : List Token) (docs : List DocComment) :
    ofTokens (front ++ last :: beyond) docs = ofTokens (front ++ [last]) docs := by
  obtain ⟨first, rest, hts⟩ : ∃ first rest, front ++ [last] = first :: rest := by
    cases front with
    | nil => exact ⟨last, [], rfl⟩
    | cons t front => exact ⟨t, front ++ [last], rfl⟩
  have hmore : front ++ last :: beyond = first :: (rest ++ beyond) := by
    rw [← List.cons_append, ← hts, List.append_assoc]
    rfl
  have hend : Cursor.HasEnd { docs := docs, previous := first, rest := first :: rest } :=
    ⟨last, hts ▸ by simp, hlast⟩
  have hrun := Reader.bounded_sourceUnit.unseen _ beyond hend
  rw [hts, hmore]
  exact congrArg (fun r => (r.1, r.2.failure)) hrun

end SourceUnit

end AvroIdl
