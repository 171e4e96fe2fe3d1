import AvroIdl.Proofs.Acceptance

/-!
# What is read was spelt

A reader that ends without a failure did not start with one, and the tokens it passed spell the
value it gives. The facts about what was passed come with the postcondition: a step adds its own as
an assumption, and the last one proves the whole.
-/
namespace AvroIdl

open Token (ofMark ofKeyword ofName ofLiteral)

namespace Reader

variable {α β : Type}

/-- If the reader ends without a failure, it has passed tokens of the file that stand in the given
relation to its value. -/
def Spells (pre : Cursor → Prop) (x : Reader α) (Q : α → List Token → Prop) : Prop :=
  ∀ c, pre c → (x.run c).2.failure = none → c.failure = none ∧
    ∃ ts, c.rest = ts ++ (x.run c).2.rest ∧ (∀ t ∈ ts, t.kind ≠ .endOfFile) ∧ Q (x.run c).1 ts

/-- Wherever the reader stands. -/
def anywhere : Cursor → Prop := fun _ => True

theorem failure_fail_ne_none (c : Cursor) (p : SyntaxProblem) : (c.fail p).failure ≠ none := by
  unfold Cursor.fail
  split
  · simp_all [Option.isSome_iff_ne_none]
  · simp

theorem rest_eq_cons {c : Cursor} (h : c.current.kind ≠ .endOfFile) :
    c.rest = c.current :: c.next.rest ∧ c.next.previous = c.current ∧
      c.next.failure = c.failure := by
  cases hr : c.rest with
  | nil => exact absurd (by simp [Cursor.current, hr]) h
  | cons t rest =>
    have hcurrent : c.current = t := by simp [Cursor.current, hr]
    rw [next_eq hr (by rwa [hcurrent] at h), hcurrent]
    exact ⟨rfl, rfl, rfl⟩

section Rules

variable {pre : Cursor → Prop} {x : Reader α} {f : α → Reader β} {P : α → List Token → Prop}
  {Q : β → List Token → Prop} {k : Token.Kind}

theorem Spells.pure {a : α} (h : P a []) : Spells pre (pure a) P := by
  intro c _ hend
  exact ⟨hend, [], rfl, by simp, h⟩

theorem Spells.mono {pre' : Cursor → Prop} {P' : α → List Token → Prop} (hx : Spells pre x P)
    (hpre : ∀ c, pre' c → pre c) (hP : ∀ a ts, P a ts → P' a ts) : Spells pre' x P' := by
  intro c hc hend
  obtain ⟨hfailure, ts, hr, hts, h⟩ := hx c (hpre c hc) hend
  exact ⟨hfailure, ts, hr, hts, hP _ _ h⟩

theorem Spells.weaken {P' : α → List Token → Prop} (hx : Spells pre x P)
    (hP : ∀ a ts, P a ts → P' a ts) : Spells pre x P' := hx.mono (fun _ h => h) hP

theorem Spells.here (hx : Spells anywhere x P) : Spells pre x P :=
  hx.mono (fun _ _ => trivial) fun _ _ h => h

theorem Spells.bind (hx : Spells pre x P)
    (hf : ∀ a, Spells anywhere (f a) fun b ts => ∀ ts₁, P a ts₁ → Q b (ts₁ ++ ts)) :
    Spells pre (x >>= f) Q := by
  intro c hc hend
  obtain ⟨hmid, ts₂, hr₂, hts₂, hQ⟩ := hf (x.run c).1 (x.run c).2 trivial hend
  obtain ⟨hfailure, ts₁, hr₁, hts₁, hP⟩ := hx c hc hmid
  refine ⟨hfailure, ts₁ ++ ts₂, ?_, ?_, hQ ts₁ hP⟩
  · rw [hr₁, hr₂, List.append_assoc]
    rfl
  · intro t ht
    exact (List.mem_append.mp ht).elim (hts₁ t) (hts₂ t)

theorem Spells.map {g : α → β} (hx : Spells pre x fun a => Q (g a)) : Spells pre (g <$> x) Q :=
  hx

theorem spells_get {f : Cursor → Reader β} (h : ∀ c, pre c → Spells (· = c) (f c) Q) :
    Spells pre (get >>= f) Q := fun c hc hend => h c hc c rfl hend

theorem spells_peek {f : Token → Reader β}
    (h : ∀ t, Spells (fun c => pre c ∧ c.current = t) (f t) Q) : Spells pre (peek >>= f) Q :=
  fun c hc hend => h c.current c ⟨hc, rfl⟩ hend

theorem spells_isAt {x y : Reader β} (hx : Spells (fun c => pre c ∧ c.isAt k = true) x Q)
    (hy : Spells pre y Q) : Spells pre (isAt k >>= fun b => if b = true then x else y) Q := by
  intro c hc
  change ((if c.isAt k = true then x else y).run c).2.failure = none → _ ∧
    ∃ ts, _ = ts ++ ((if c.isAt k = true then x else y).run c).2.rest ∧ _ ∧
      Q ((if c.isAt k = true then x else y).run c).1 ts
  split
  · exact hx c ⟨hc, ‹_›⟩
  · exact hy c hc

theorem spells_takeDoc {f : Option Text → Reader β} (t : Token)
    (h : ∀ doc, Spells anywhere (f doc) Q) : Spells pre (takeDoc t >>= f) Q := by
  intro c _ hend
  obtain ⟨doc, used, hdoc⟩ := takeDoc_run t c
  have hrun : (takeDoc t >>= f).run c = (f doc).run { c with used := used } := by
    rw [StateT.run_bind, hdoc]
    rfl
  rw [hrun] at hend ⊢
  exact h doc { c with used := used } trivial hend

theorem spells_fail {b : β} (p : Cursor → SyntaxProblem) :
    Spells pre ((modify fun c => c.fail (p c) : Reader Unit) >>= fun _ => pure b) Q :=
  fun c _ hend => absurd hend (failure_fail_ne_none c (p c))

theorem spells_failed {b : β} (hpre : ∀ c, pre c → c.failure ≠ none) : Spells pre (pure b) Q :=
  fun c hc hend => absurd hend (hpre c hc)

/-- One token is passed, and the rest is read after it. -/
theorem spells_next {c : Cursor} {y : Reader β} (hk : c.current.kind ≠ .endOfFile)
    (hy : Spells (· = c.next) y fun b ts => Q b (c.current :: ts))
    (hend : (y.run c.next).2.failure = none) :
    c.failure = none ∧ ∃ ts, c.rest = ts ++ (y.run c.next).2.rest ∧
      (∀ t ∈ ts, t.kind ≠ .endOfFile) ∧ Q (y.run c.next).1 ts := by
  obtain ⟨hrest, -, hnext⟩ := rest_eq_cons hk
  obtain ⟨hfailure, ts, hr, hts, hQ⟩ := hy c.next rfl hend
  refine ⟨hnext ▸ hfailure, c.current :: ts, ?_, ?_, hQ⟩
  · rw [hrest, hr, List.cons_append]
  · simpa using ⟨hk, hts⟩

theorem kind_of_isAt {c : Cursor} (h : c.isAt k = true) : c.current.kind = k := by
  simp only [Cursor.isAt, Bool.and_eq_true, beq_iff_eq] at h
  exact h.2

theorem spells_accept_next {f : Bool → Reader β} (hne : k ≠ .endOfFile)
    (htrue : ∀ c, pre c → c.failure = none → c.current.kind = k →
      Spells (· = c.next) (f true) fun b ts => Q b (c.current :: ts))
    (hfalse : Spells (fun c => pre c ∧ c.isAt k = false) (f false) Q) :
    Spells pre (accept k >>= f) Q := by
  intro c hc hend
  cases hat : c.isAt k with
  | true =>
    have hkind := kind_of_isAt hat
    have hfailure : c.failure = none := by
      simp only [Cursor.isAt, Bool.and_eq_true, Option.isNone_iff_eq_none] at hat
      exact hat.1
    have hrun : (accept k >>= f).run c = (f true).run c.next := by
      rw [StateT.run_bind, accept_run_of_isAt hat]
      rfl
    rw [hrun] at hend ⊢
    exact spells_next (by rwa [hkind]) (htrue c hc hfailure hkind) hend
  | false =>
    have hrun : (accept k >>= f).run c = (f false).run c := by
      rw [StateT.run_bind, accept_run_of_not_isAt hat]
      rfl
    rw [hrun] at hend ⊢
    exact hfalse c ⟨hc, hat⟩ hend

/-- After a token was passed it is the previous one. -/
theorem spells_accept {f : Bool → Reader β} (hne : k ≠ .endOfFile)
    (htrue : ∀ t, t.kind = k → Spells (·.previous = t) (f true) fun b ts => Q b (t :: ts))
    (hfalse : Spells (fun c => pre c ∧ c.isAt k = false) (f false) Q) :
    Spells pre (accept k >>= f) Q := by
  refine spells_accept_next hne (fun c _ _ hk => ?_) hfalse
  refine (htrue c.current hk).mono ?_ fun _ _ h => h
  rintro _ rfl
  exact (rest_eq_cons (by rwa [hk])).2.1

theorem spells_accept_if {x y : Reader β} (hne : k ≠ .endOfFile)
    (hx : ∀ t, t.kind = k → Spells (·.previous = t) x fun b ts => Q b (t :: ts))
    (hy : Spells (fun c => pre c ∧ c.isAt k = false) y Q) :
    Spells pre (accept k >>= fun b => if b = true then x else y) Q :=
  spells_accept hne hx hy

/-- A token is passed whose kind is known not to be the end of the file. -/
theorem spells_advance {f : Token → Reader β} (hpre : ∀ c, pre c → c.current.kind ≠ .endOfFile)
    (h : ∀ c, pre c → Spells anywhere (f c.current) fun b ts => Q b (c.current :: ts)) :
    Spells pre (advance >>= f) Q := by
  intro c hc hend
  have hk := hpre c hc
  have hrun : (advance >>= f).run c = (f c.current).run c.next := by
    rw [← (rest_eq_cons hk).2.1]
    rfl
  rw [hrun] at hend ⊢
  exact spells_next hk (h c hc).here hend

/-- The reader passes one token, which stands in a relation to its value. -/
theorem Spells.bind_token {A : α → Token → Prop}
    (hx : Spells pre x fun a ts => ∃ t, ts = [t] ∧ A a t)
    (hf : ∀ a, Spells anywhere (f a) fun b ts => ∀ t, A a t → Q b (t :: ts)) :
    Spells pre (x >>= f) Q := by
  refine hx.bind fun a => (hf a).weaken ?_
  rintro b ts h _ ⟨t, rfl, ht⟩
  exact h t ht

theorem spells_expect_only (hne : k ≠ .endOfFile) :
    Spells pre (expect k) fun a ts => ∃ t, ts = [t] ∧ t = a ∧ t.kind = k := by
  intro c _ hend
  cases hat : c.isAt k with
  | true =>
    have hkind := kind_of_isAt hat
    obtain ⟨hrest, hprevious, hfailure⟩ := rest_eq_cons (c := c) (by rwa [hkind])
    rw [expect_run_of_isAt hat] at hend ⊢
    refine ⟨by rw [← hfailure, hend], [c.current], hrest, by simpa [hkind], c.current, rfl, ?_⟩
    exact ⟨hprevious.symm, hkind⟩
  | false =>
    rw [expect_run_of_not_isAt hat] at hend
    exact absurd hend (failure_fail_ne_none _ _)

theorem spells_expect {f : Token → Reader β} (hne : k ≠ .endOfFile)
    (h : ∀ t, Spells anywhere (f t) fun b ts => t.kind = k → Q b (t :: ts)) :
    Spells pre (expect k >>= f) Q := by
  refine (spells_expect_only hne).bind_token fun a => (h a).weaken ?_
  rintro b ts h t ⟨rfl, ht⟩
  exact h ht

theorem fits_mark {t : Token} {m : Mark} (h : t.kind = .mark m) : Token.Fits (ofMark m) t :=
  ⟨.inl h, nofun⟩

theorem fits_keyword {t : Token} {k : Keyword} (h : t.kind = .keyword k) :
    Token.Fits (ofKeyword k) t := ⟨.inl h, nofun⟩

theorem fits_literal {t : Token} (h : t.kind = k) : Token.Fits (ofLiteral k t.text) t :=
  ⟨.inl h, fun _ => rfl⟩

theorem spells_expectMark {f : Token → Reader β} (m : Mark)
    (h : ∀ t, Spells anywhere (f t) fun b ts => Token.Fits (ofMark m) t → Q b (t :: ts)) :
    Spells pre (expectMark m >>= f) Q :=
  spells_expect (by simp) fun t => (h t).weaken fun _ _ h ht => h (fits_mark ht)

theorem spells_identifier_only :
    Spells pre identifier fun i ts => ∃ t, ts = [t] ∧ Token.Fits i.token t := by
  intro c _ hend
  cases hat : c.isAtName with
  | true =>
    have hname : c.current.kind.isName = true := by
      simp only [Cursor.isAtName, Bool.and_eq_true] at hat
      exact hat.2
    have hk : c.current.kind ≠ .endOfFile := by
      intro h
      simp [h, Token.Kind.isName] at hname
    obtain ⟨hrest, hprevious, hfailure⟩ := rest_eq_cons hk
    rw [identifier_run_of_isAtName hat] at hend ⊢
    refine ⟨by rw [← hfailure, hend], [c.current], hrest, by simpa, c.current, rfl, ?_, ?_⟩
    · cases hkind : c.current.kind <;> simp_all [Token.Kind.isName, Token.Kind.isKeyword]
    · intro _
      simp [Identifier.token, ofName, hprevious]
  | false =>
    rw [identifier_run_of_not_isAtName hat] at hend
    exact absurd hend (failure_fail_ne_none _ _)

theorem spells_identifier {f : Identifier → Reader β}
    (h : ∀ i, Spells anywhere (f i) fun b ts => ∀ t, Token.Fits i.token t → Q b (t :: ts)) :
    Spells pre (identifier >>= f) Q :=
  spells_identifier_only.bind_token h

end Rules

section Loops

variable {part : Reader α} {W : α → Prop} {print : α → List Token} {pre : Cursor → Prop}

/-- The tokens spell a value that has the property, as it is printed. -/
def Prints (W : α → Prop) (print : α → List Token) (a : α) (ts : List Token) : Prop :=
  W a ∧ List.Forall₂ Token.Fits (print a) ts

theorem spells_manyWithin {test : Cursor → Bool}
    (hpart : Spells (fun c => test c = true) part (Prints W print)) (steps : Nat) :
    Spells pre (manyWithin test part steps)
      (Prints (fun as => ∀ a ∈ as, W a) (·.flatMap print)) := by
  induction steps generalizing pre with
  | zero => exact Spells.pure ⟨by simp, .nil⟩
  | succ steps ih =>
    unfold manyWithin
    refine spells_get fun c _ => ?_
    split
    · rename_i htest
      refine (hpart.mono (fun d hd => by rwa [hd]) fun _ _ h => h).bind fun a => ?_
      refine ih.bind fun as => Spells.pure ?_
      rintro ts₂ ⟨has, hts₂⟩ ts₁ ⟨ha, hts₁⟩
      refine ⟨by simpa using ⟨ha, has⟩, ?_⟩
      simpa using List.rel_append hts₁ hts₂
    · exact Spells.pure ⟨by simp, .nil⟩

theorem spells_many {test : Cursor → Bool}
    (hpart : Spells (fun c => test c = true) part (Prints W print)) :
    Spells pre (many test part) (Prints (fun as => ∀ a ∈ as, W a) (·.flatMap print)) :=
  spells_get fun _ _ => spells_manyWithin hpart _

theorem commas_cons {ts : List Token} {tss : List (List Token)} (h : tss ≠ []) :
    commas (ts :: tss) = ts ++ ofMark .comma :: commas tss := by
  cases tss with
  | nil => exact absurd rfl h
  | cons us tss => rfl

theorem spells_separatedWithin (hpart : Spells anywhere part (Prints W print)) (steps : Nat) :
    Spells (·.rest.length < steps) (separatedWithin part steps)
      (Prints (fun as => as ≠ [] ∧ ∀ a ∈ as, W a) fun as => commas (as.map print)) := by
  induction steps with
  | zero => exact fun c hc => absurd hc (by simp)
  | succ steps ih =>
    intro c hc hend
    -- after a comma fewer tokens are left than there are steps
    have htail : Spells (· = (part.run c).2) (accept (.mark .comma) >>= fun b =>
        if b = true then do
          let as ← separatedWithin part steps
          pure ((part.run c).1 :: as)
        else pure [(part.run c).1])
        (fun as ts => ∀ ts₁, Prints W print (part.run c).1 ts₁ →
          Prints (fun as => as ≠ [] ∧ ∀ a ∈ as, W a) (fun as => commas (as.map print)) as
            (ts₁ ++ ts)) := by
      refine spells_accept_next (by simp) ?_ ?_
      · rintro _ rfl hmid hcomma
        obtain ⟨-, ts₁, hr, -⟩ := hpart c trivial hmid
        have hless : (part.run c).2.next.rest.length < steps := by
          rw [hr, (rest_eq_cons (by simp [hcomma])).1] at hc
          simp only [List.length_append, List.length_cons] at hc
          omega
        refine (ih.mono (fun d hd => by rwa [hd]) fun _ _ h => h).bind fun as => Spells.pure ?_
        rintro ts₂ ⟨⟨hne, has⟩, hts₂⟩ ts₁ ⟨ha, hts₁⟩
        refine ⟨⟨by simp, by simpa using ⟨ha, has⟩⟩, ?_⟩
        simp only [List.map_cons, commas_cons (List.map_eq_nil_iff.not.mpr hne), List.append_nil]
        exact List.rel_append hts₁ (.cons (fits_mark hcomma) hts₂)
      · refine Spells.pure fun ts₁ h => ⟨by simpa using h.1, ?_⟩
        rw [List.append_nil]
        exact h.2
    obtain ⟨hmid, ts₂, hr₂, hts₂, hQ⟩ := htail _ rfl hend
    obtain ⟨hfailure, ts₁, hr₁, hts₁, hP⟩ := hpart c trivial hmid
    refine ⟨hfailure, ts₁ ++ ts₂, ?_, ?_, hQ ts₁ hP⟩
    · rw [hr₁, hr₂, List.append_assoc]
      rfl
    · intro t ht
      exact (List.mem_append.mp ht).elim (hts₁ t) (hts₂ t)

theorem spells_separated (hpart : Spells anywhere part (Prints W print)) :
    Spells pre (separated part)
      (Prints (fun as => as ≠ [] ∧ ∀ a ∈ as, W a) fun as => commas (as.map print)) := by
  refine spells_get fun c _ => ?_
  refine (spells_separatedWithin hpart _).mono ?_ fun _ _ h => h
  rintro _ rfl
  exact Nat.lt_succ_self _

/-- A list that may be empty. -/
theorem spells_enclosed {g : List α → Reader β} {Q : β → List Token → Prop} {close : Token.Kind}
    (hpart : Spells anywhere part (Prints W print))
    (hg : ∀ as, Spells anywhere (g as) fun b ts => ∀ ts₁,
      Prints (fun as => ∀ a ∈ as, W a) (fun as => commas (as.map print)) as ts₁ →
        Q b (ts₁ ++ ts)) :
    Spells pre (isAt close >>= fun b => if b = true then pure [] >>= g else separated part >>= g)
      Q := by
  refine spells_isAt ?_ ?_
  · rw [pure_bind]
    exact (hg []).mono (fun _ _ => trivial) fun b ts h => h [] ⟨by simp, .nil⟩
  · refine (spells_separated hpart).bind fun as => (hg as).weaken ?_
    intro b ts h ts₁ h₁
    exact h ts₁ ⟨h₁.1.2, h₁.2⟩

end Loops

end Reader

end AvroIdl
