import AvroIdl.Proofs.DocumentedNodes
import AvroIdl.Proofs.SpelledUnit
import AvroIdl.Proofs.StillReaders
import Mathlib.Data.List.Nodup

/-!
# Where readers take comments

A reader looks for a documentation comment at the token where it starts, and then at tokens that it
passes later. No two tokens have the same comment, so a comment that a reader looks for has not been
taken before. `Visits` tells at which tokens a reader has looked, in this order, and what that means
for its value; the rules follow the steps of a reader, and there is one theorem for every construct
that comments document.
-/
namespace AvroIdl

namespace Reader

variable {α β : Type} {docs : List DocComment}

/-- The tokens have comments from a list of this length, no two of them the same one, and none of
these has been taken. -/
structure Clear (count : Nat) (ts : List Token) (used : List Nat) : Prop where
  known : ∀ i ∈ ts.filterMap (·.doc), i < count
  distinct : (ts.filterMap (·.doc)).Nodup
  unused : ∀ i ∈ ts.filterMap (·.doc), i ∉ used

namespace Clear

variable {count : Nat} {ts rest vs : List Token} {used : List Nat}

theorem sublist (h : Clear count ts used) (hs : rest.Sublist ts) : Clear count rest used where
  known i hi := h.known i ((hs.filterMap _).subset hi)
  distinct := h.distinct.sublist (hs.filterMap _)
  unused i hi := h.unused i ((hs.filterMap _).subset hi)

/-- What comes after the tokens stays clear when comments of these are taken. -/
theorem taken (h : Clear count (ts ++ rest) used) (hvs : vs.Sublist ts) :
    Clear count rest ((vs.filterMap (·.doc)).reverse ++ used) := by
  have hrest := h.sublist (List.sublist_append_right ts rest)
  refine ⟨hrest.known, hrest.distinct, fun i hi => ?_⟩
  have hdistinct := h.distinct
  rw [List.filterMap_append] at hdistinct
  simp only [List.mem_append, List.mem_reverse, not_or]
  refine ⟨fun hmem => ?_, hrest.unused i hi⟩
  exact List.disjoint_of_nodup_append hdistinct ((hvs.filterMap _).subset hmem) hi

end Clear

/-- If the reader ends without a failure, it has looked for comments at tokens that it passed, other
than the first `skip` ones, and they stand in the given relation to its value. All comments that it
found have been taken. -/
def Visits (docs : List DocComment) (skip : Nat) (pre : Cursor → Prop) (x : Reader α)
    (Q : α → List Token → Prop) : Prop :=
  ∀ c, pre c → (x.run c).2.failure = none → c.failure = none ∧
    (c.docs = docs → Clear docs.length (c.rest.drop skip) c.used →
      ∃ ts vs, c.rest = ts ++ (x.run c).2.rest ∧ skip ≤ ts.length ∧ vs.Sublist (ts.drop skip) ∧
        (x.run c).2.docs = docs ∧
        (x.run c).2.used = (vs.filterMap (·.doc)).reverse ++ c.used ∧ Q (x.run c).1 vs)

section Rules

variable {skip : Nat} {pre : Cursor → Prop} {x : Reader α} {f : α → Reader β}
  {P : α → List Token → Prop} {Q : β → List Token → Prop}

theorem Visits.weaken {P' : α → List Token → Prop} (hx : Visits docs skip pre x P)
    (hP : ∀ a vs, P a vs → P' a vs) : Visits docs skip pre x P' := by
  intro c hc hend
  obtain ⟨hfailure, h⟩ := hx c hc hend
  refine ⟨hfailure, fun hdocs hclear => ?_⟩
  obtain ⟨ts, vs, hr, hskip, hvs, hdocs', hused, h⟩ := h hdocs hclear
  exact ⟨ts, vs, hr, hskip, hvs, hdocs', hused, hP _ _ h⟩

theorem Visits.before {pre' : Cursor → Prop} (hx : Visits docs skip pre x P)
    (hpre : ∀ c, pre' c → pre c) : Visits docs skip pre' x P := fun c hc => hx c (hpre c hc)

theorem Visits.here (hx : Visits docs skip anywhere x P) : Visits docs skip pre x P :=
  hx.before fun _ _ => trivial

theorem Visits.pure {a : α} (h : P a []) : Visits docs 0 pre (pure a) P :=
  fun _ _ hend => ⟨hend, fun hdocs _ =>
    ⟨[], [], rfl, Nat.le_refl _, List.Sublist.refl _, hdocs, rfl, h⟩⟩

theorem Visits.bind (hx : Visits docs skip pre x P)
    (hf : ∀ a, Visits docs 0 anywhere (f a) fun b vs => ∀ vs₁, P a vs₁ → Q b (vs₁ ++ vs)) :
    Visits docs skip pre (x >>= f) Q := by
  intro c hc hend
  obtain ⟨hmid, hlater⟩ := hf (x.run c).1 (x.run c).2 trivial hend
  obtain ⟨hfailure, hfirst⟩ := hx c hc hmid
  refine ⟨hfailure, fun hdocs hclear => ?_⟩
  obtain ⟨ts₁, vs₁, hr₁, hskip, hvs₁, hdocs₁, hused₁, hP⟩ := hfirst hdocs hclear
  rw [hr₁, List.drop_append_of_le_length hskip] at hclear
  obtain ⟨ts₂, vs₂, hr₂, -, hvs₂, hdocs₂, hused₂, hQ⟩ :=
    hlater hdocs₁ (hused₁ ▸ hclear.taken hvs₁)
  refine ⟨ts₁ ++ ts₂, vs₁ ++ vs₂, ?_, ?_, ?_, hdocs₂, ?_, hQ vs₁ hP⟩
  · rw [hr₁, hr₂, List.append_assoc]
    rfl
  · rw [List.length_append]
    omega
  · rw [List.drop_append_of_le_length hskip]
    exact hvs₁.append hvs₂
  · rw [List.filterMap_append, List.reverse_append, List.append_assoc, ← hused₁]
    exact hused₂

theorem Still.visits (hs : Still x) (hx : Spells pre x P)
    (hP : ∀ a ts, P a ts → skip ≤ ts.length) :
    Visits docs skip pre x fun a vs => vs = [] ∧ ∃ ts, P a ts := by
  intro c hc hend
  obtain ⟨hfailure, ts, hr, -, hts⟩ := hx c hc hend
  refine ⟨hfailure, fun hdocs _ => ⟨ts, [], hr, hP _ _ hts, List.nil_sublist _, ?_⟩⟩
  exact ⟨(hs c).1.trans hdocs, (hs c).2, rfl, ts, hts⟩

/-- Once the tokens are passed that are not looked at, all others may be. -/
theorem visits_passed (hs : Still x) (hx : Spells pre x P)
    (hP : ∀ a ts, P a ts → skip ≤ ts.length)
    (hf : ∀ a, Visits docs 0 anywhere (f a) fun b vs => (∃ ts, P a ts) → Q b vs) :
    Visits docs skip pre (x >>= f) Q := by
  refine (hs.visits hx hP).bind fun a => (hf a).weaken ?_
  rintro b vs hQ _ ⟨rfl, hts⟩
  exact hQ hts

theorem drop_sublist_append (skip : Nat) (ts ts' : List Token) :
    (ts'.drop skip).Sublist ((ts ++ ts').drop skip) := by
  rw [List.drop_append]
  exact (List.drop_sublist_drop_left ts' (Nat.sub_le _ _)).trans (List.sublist_append_right _ _)

/-- Nothing is lost when tokens are passed first, be it those that are not looked at. -/
theorem visits_still (hs : Still x) (hx : Spells pre x P)
    (hf : ∀ a, Visits docs skip anywhere (f a) Q) : Visits docs skip pre (x >>= f) Q := by
  intro c hc hend
  obtain ⟨hmid, hlater⟩ := hf (x.run c).1 (x.run c).2 trivial hend
  obtain ⟨hfailure, ts₁, hr₁, -, -⟩ := hx c hc hmid
  refine ⟨hfailure, fun hdocs hclear => ?_⟩
  have hclear' : Clear docs.length ((x.run c).2.rest.drop skip) (x.run c).2.used := by
    rw [(hs c).2]
    exact hclear.sublist (hr₁ ▸ drop_sublist_append skip ts₁ _)
  obtain ⟨ts₂, vs, hr₂, hskip, hvs, hdocs₂, hused₂, hQ⟩ := hlater ((hs c).1.trans hdocs) hclear'
  refine ⟨ts₁ ++ ts₂, vs, ?_, ?_, hvs.trans (drop_sublist_append skip ts₁ ts₂), hdocs₂, ?_, hQ⟩
  · rw [hr₁, hr₂, List.append_assoc]
    rfl
  · rw [List.length_append]
    omega
  · rw [← (hs c).2]
    exact hused₂

theorem visits_get {f : Cursor → Reader β} (h : ∀ c, pre c → Visits docs skip (· = c) (f c) Q) :
    Visits docs skip pre (get >>= f) Q := fun c hc hend => h c hc c rfl hend

theorem visits_peek {f : Token → Reader β}
    (h : ∀ t, Visits docs skip (fun c => pre c ∧ c.current = t) (f t) Q) :
    Visits docs skip pre (peek >>= f) Q :=
  fun c hc hend => h c.current c ⟨hc, rfl⟩ hend

theorem visits_fail {b : β} (p : Cursor → SyntaxProblem) :
    Visits docs skip pre ((modify fun c => c.fail (p c) : Reader Unit) >>= fun _ => pure b) Q :=
  fun c _ hend => absurd hend (failure_fail_ne_none c (p c))

theorem visits_failed {b : β} (hpre : ∀ c, pre c → c.failure ≠ none) :
    Visits docs skip pre (pure b) Q :=
  fun c hc hend => absurd hend (hpre c hc)

theorem visits_isAt {k : Token.Kind} {x y : Reader β}
    (hx : Visits docs skip (fun c => pre c ∧ c.isAt k = true) x Q) (hy : Visits docs skip pre y Q) :
    Visits docs skip pre (isAt k >>= fun b => if b = true then x else y) Q := by
  intro c hc
  have hrun : (isAt k >>= fun b => if b = true then x else y).run c =
      (if c.isAt k = true then x else y).run c := rfl
  rw [hrun]
  split
  · exact hx c ⟨hc, ‹_›⟩
  · exact hy c hc

theorem spells_accept_only {k : Token.Kind} (hk : k ≠ .endOfFile) :
    Spells pre (accept k) fun _ _ => True :=
  spells_accept (f := pure) hk (fun _ _ => Spells.pure trivial) (Spells.pure trivial)

theorem visits_accept {k : Token.Kind} {f : Bool → Reader β} (hk : k ≠ .endOfFile)
    (h : ∀ b, Visits docs skip anywhere (f b) Q) : Visits docs skip pre (accept k >>= f) Q :=
  visits_still (still.of_accept k) (spells_accept_only hk) h

theorem visits_expectMark {f : Token → Reader β} (m : Mark)
    (h : ∀ t, Visits docs 0 anywhere (f t) Q) : Visits docs 0 pre (expectMark m >>= f) Q :=
  visits_still (still.of_expectMark m) (spells_expect_only (by simp)) h

theorem visits_identifier {f : Identifier → Reader β}
    (h : ∀ i, Visits docs 0 anywhere (f i) Q) : Visits docs 0 pre (identifier >>= f) Q :=
  visits_still still.of_identifier spells_identifier_only h

/-- A declaration passes the token where it starts. -/
theorem visits_advance {f : Token → Reader β} (hpre : ∀ c, pre c → c.current.kind ≠ .endOfFile)
    (h : ∀ t, Visits docs 0 anywhere (f t) Q) : Visits docs 1 pre (advance >>= f) Q := by
  have hone : Spells pre advance fun a ts => ts = [a] :=
    spells_advance (f := pure) hpre fun c _ => Spells.pure rfl
  refine visits_passed still.of_advance hone ?_ fun t => (h t).weaken fun _ _ hQ _ => hQ
  rintro a ts rfl
  simp

/-- The comment of a token is taken, unless it has been taken already. -/
theorem takeDoc_run_of_unused {t : Token} {c : Cursor}
    (h : ∀ i, t.doc = some i → i < c.docs.length ∧ i ∉ c.used) :
    (takeDoc t).run c = (t.documentation c.docs, { c with used := t.doc.toList ++ c.used }) := by
  unfold takeDoc Token.documentation
  simp only [StateT.run_bind, StateT.run_get, pure_bind]
  cases hi : t.doc with
  | none => rfl
  | some i =>
    obtain ⟨hlt, hunused⟩ := h i hi
    simp only [List.getElem?_eq_getElem hlt, List.contains_eq_mem, hunused, decide_false,
      Bool.false_eq_true, if_false, Option.bind_some]
    rfl

theorem reverse_filterMap_singleton (t : Token) :
    ([t].filterMap (·.doc)).reverse = t.doc.toList := by
  cases ht : t.doc <;> simp [ht]

/-- The comment of the token where a cursor stands can be taken, and what comes after it stays
clear. -/
theorem clear_current {c : Cursor} {count : Nat} (h : Clear count c.rest c.used) :
    (∀ i, c.current.doc = some i → i < count ∧ i ∉ c.used) ∧
      Clear count (c.rest.drop 1) (c.current.doc.toList ++ c.used) := by
  cases hr : c.rest with
  | nil =>
    have hcurrent : c.current = {} := by simp [Cursor.current, hr]
    rw [hcurrent]
    exact ⟨by simp, by simp, by simp, by simp⟩
  | cons t rest =>
    have hcurrent : c.current = t := by simp [Cursor.current, hr]
    rw [hr] at h
    rw [hcurrent]
    constructor
    · intro i hi
      have hmem : i ∈ (t :: rest).filterMap (·.doc) := by simp [hi]
      exact ⟨h.known i hmem, h.unused i hmem⟩
    · rw [← reverse_filterMap_singleton]
      exact (show Clear count ([t] ++ rest) c.used from h).taken (List.Sublist.refl [t])

/-- A reader looks for a comment at the token where it starts. -/
theorem visits_takeDoc {t : Token} {f : Option Text → Reader β}
    (h : ∀ doc, Visits docs 1 (·.current = t) (f doc) fun b vs =>
      doc = t.documentation docs → Q b (t :: vs)) :
    Visits docs 0 (fun c => pre c ∧ c.current = t) (takeDoc t >>= f) Q := by
  rintro c ⟨-, rfl⟩ hend
  obtain ⟨doc, used, hdoc⟩ := takeDoc_run c.current c
  have hrun : (takeDoc c.current >>= f).run c = (f doc).run { c with used := used } := by
    rw [StateT.run_bind, hdoc]
    rfl
  rw [hrun] at hend ⊢
  obtain ⟨hfailure, hlater⟩ := h doc { c with used := used } rfl hend
  refine ⟨hfailure, fun hdocs hclear => ?_⟩
  rw [← hdocs] at hclear
  obtain ⟨hunused, hnext⟩ := clear_current hclear
  obtain ⟨hdoc', hcursor⟩ := Prod.mk.inj (hdoc.symm.trans (takeDoc_run_of_unused hunused))
  have hused : used = c.current.doc.toList ++ c.used := congrArg Cursor.used hcursor
  rw [← hused, hdocs] at hnext
  obtain ⟨ts, vs, hts, hskip, hvs, hdocs', hused', hQ⟩ := hlater hdocs hnext
  obtain ⟨u, ts, rfl⟩ := List.exists_cons_of_length_pos hskip
  obtain rfl : c.current = u := by
    rw [Cursor.current, show c.rest = _ from hts]
    rfl
  refine ⟨c.current :: ts, c.current :: vs, hts, Nat.zero_le _, .cons_cons _ hvs, hdocs', ?_, ?_⟩
  · have hsplit : (c.current :: vs).filterMap (·.doc) =
        [c.current].filterMap (·.doc) ++ vs.filterMap (·.doc) := by
      rw [← List.filterMap_append]
      rfl
    rw [hused', hused, hsplit, List.reverse_append, reverse_filterMap_singleton, List.append_assoc]
  · exact hQ (hdocs ▸ hdoc')

end Rules

section Loops

variable {part : Reader α} {nodes : α → List Documented} {pre : Cursor → Prop}

theorem visits_manyWithin {test : Cursor → Bool}
    (hpart : Visits docs 0 anywhere part fun a vs => Shows docs (nodes a) vs) (steps : Nat) :
    Visits docs 0 pre (manyWithin test part steps)
      fun as vs => Shows docs (as.flatMap nodes) vs := by
  induction steps generalizing pre with
  | zero => exact Visits.pure .nil
  | succ steps ih =>
    unfold manyWithin
    refine visits_get fun c _ => ?_
    split
    · refine hpart.here.bind fun a => ih.bind fun as => Visits.pure fun vs₂ h₂ vs₁ h₁ => ?_
      simpa using h₁.append h₂
    · exact Visits.pure .nil

theorem visits_many {test : Cursor → Bool}
    (hpart : Visits docs 0 anywhere part fun a vs => Shows docs (nodes a) vs) :
    Visits docs 0 pre (many test part) fun as vs => Shows docs (as.flatMap nodes) vs :=
  visits_get fun _ _ => visits_manyWithin hpart _

theorem visits_separatedWithin
    (hpart : Visits docs 0 anywhere part fun a vs => Shows docs (nodes a) vs) (steps : Nat) :
    Visits docs 0 pre (separatedWithin part steps)
      fun as vs => Shows docs (as.flatMap nodes) vs := by
  induction steps generalizing pre with
  | zero => exact Visits.pure .nil
  | succ steps ih =>
    refine hpart.here.bind fun a => visits_accept (by simp) fun b => ?_
    split
    · refine ih.bind fun as => Visits.pure fun vs₂ h₂ vs₁ h₁ => ?_
      simpa using h₁.append h₂
    · refine Visits.pure fun vs₁ h₁ => ?_
      simpa using h₁

theorem visits_separated (hpart : Visits docs 0 anywhere part fun a vs => Shows docs (nodes a) vs) :
    Visits docs 0 pre (separated part) fun as vs => Shows docs (as.flatMap nodes) vs :=
  visits_get fun _ _ => visits_separatedWithin hpart _

/-- A list that may be empty. -/
theorem visits_enclosed {g : List α → Reader β} {R : List α → List Token → Prop}
    {Q : β → List Token → Prop} {close : Token.Kind} (hnil : R [] [])
    (hpart : Visits docs 0 anywhere (separated part) R)
    (hg : ∀ as, Visits docs 0 anywhere (g as) fun b vs => ∀ vs₁, R as vs₁ → Q b (vs₁ ++ vs)) :
    Visits docs 0 pre
      (isAt close >>= fun b => if b = true then pure [] >>= g else separated part >>= g) Q := by
  refine visits_isAt ?_ (hpart.here.bind hg)
  rw [pure_bind]
  exact ((hg []).weaken fun b vs h => h [] hnil).here

end Loops

section Starts

variable {pre : Cursor → Prop} {x : Reader α} {P P' : α → List Token → Prop}

theorem Spells.and (hx : Spells pre x P) (hx' : Spells pre x P') :
    Spells pre x fun a ts => P a ts ∧ P' a ts := by
  intro c hc hend
  obtain ⟨hfailure, ts, hr, hts, hP⟩ := hx c hc hend
  obtain ⟨-, ts', hr', -, hP'⟩ := hx' c hc hend
  obtain rfl := List.append_cancel_right (hr.symm.trans hr')
  exact ⟨hfailure, ts, hr, hts, hP, hP'⟩

theorem spells_marked_from {pre : Cursor → Prop} {f : TypeMark → Reader β}
    {Q : β → List Token → Prop} {as : List Annotation} {isOptional : Bool} {start : Span}
    (h : ∀ m, m.span.start = start.start → Spells anywhere (f m) Q) :
    Spells pre ((do
        let c ← get
        pure ⟨as, isOptional, start.to c.previous.span⟩ : Reader TypeMark) >>= f) Q :=
  fun c _ hend => h _ rfl c trivial hend

/-- The mark of a type starts where the type does. -/
theorem spells_plainType_from (levels : Nat) (as : List Annotation) (start : Span) :
    Spells anywhere (plainType levels as start) fun t _ => t.mark.span.start = start.start := by
  cases levels with
  | zero => exact spells_fail fun _ => .deepType
  | succ levels =>
    have hpart := spells_annotated (spells_plainType levels)
    unfold plainType
    refine spells_accept_if (by simp) (fun t ht => ?_) ?_
    · refine spells_expectMark _ fun _ => hpart.bind fun u => spells_expectMark _ fun _ => ?_
      exact spells_marked_from fun m hm => Spells.pure fun _ _ _ _ => hm
    refine spells_accept_if (by simp) (fun t ht => ?_) ?_
    · refine spells_expectMark _ fun _ => hpart.bind fun u => spells_expectMark _ fun _ => ?_
      exact spells_marked_from fun m hm => Spells.pure fun _ _ _ _ => hm
    refine spells_accept_if (by simp) (fun t ht => ?_) ?_
    · refine spells_expectMark _ fun _ => (spells_separated hpart).bind fun us => ?_
      refine spells_expectMark _ fun _ => ?_
      exact spells_marked_from fun m hm => Spells.pure fun _ _ _ _ => hm
    refine spells_accept_if (by simp) (fun t ht => ?_) ?_
    · refine spells_expectMark _ fun _ => spells_expect (by simp) fun precision => ?_
      refine spells_accept_if (by simp) (fun comma _ => ?_) ?_
      · rw [bind_map_left]
        refine spells_expect (by simp) fun scale => spells_expectMark _ fun _ => ?_
        refine spells_question fun isOptional => ?_
        exact spells_marked_from fun m hm => Spells.pure fun _ _ _ _ _ _ => hm
      · rw [pure_bind]
        refine spells_expectMark _ fun _ => spells_question fun isOptional => ?_
        exact spells_marked_from fun m hm => Spells.pure fun _ _ _ _ _ => hm
    refine spells_get fun c _ => ?_
    split
    · rename_i k hk
      refine spells_advance (by rintro _ rfl; simp [(kind_of_primitive hk).2.1]) ?_
      rintro _ rfl
      refine spells_question fun isOptional => ?_
      exact spells_marked_from fun m hm => Spells.pure fun _ _ => hm
    · split
      · refine spells_identifier fun name => spells_question fun isOptional => ?_
        exact spells_marked_from fun m hm => Spells.pure fun _ _ _ _ => hm
      · exact spells_fail fun c => .mismatch c.current _

/-- A type has tokens, and its mark starts at the first one. -/
theorem spells_fullType_from (first : Token) :
    Spells (·.current = first) fullType fun t ts =>
      ts ≠ [] ∧ t.mark.span.start = first.span.start := by
  have hstart : Spells (·.current = first) fullType fun t _ =>
      t.mark.span.start = first.span.start := by
    rintro c rfl hend
    have hrest : Spells anywhere (annotations >>= fun as =>
        plainType (maxNesting + 1) as c.current.span) fun t _ =>
          t.mark.span.start = c.current.span.start :=
      spells_annotations.bind fun as => (spells_plainType_from _ as _).weaken fun _ _ h _ _ => h
    exact hrest c trivial hend
  refine (spells_fullType.here.and hstart).weaken ?_
  rintro t ts ⟨⟨ht, hts⟩, hstart⟩
  refine ⟨?_, hstart⟩
  rintro rfl
  obtain ⟨u, us, hu, -⟩ := begins_type ht trivial fun _ _ => trivial
  rw [hu] at hts
  cases hts

end Starts

section Declarations

theorem visits_declarator :
    Visits docs 0 anywhere declarator fun d vs =>
      ∃ t, vs = [t] ∧ d.span.start = t.span.start ∧ d.doc = t.documentation docs := by
  unfold declarator
  refine visits_peek fun first => visits_takeDoc fun doc => ?_
  refine visits_still still.of_annotations spells_annotations fun as => ?_
  refine visits_passed still.of_identifier spells_identifier_only ?_ fun name => ?_
  · rintro i ts ⟨t, rfl, -⟩
    exact Nat.le_refl _
  refine visits_accept (by simp) fun b => ?_
  split
  · rw [bind_map_left]
    refine visits_still (still.of_json _) spells_jsonValue fun v => visits_get fun c _ => ?_
    exact Visits.pure fun _ hdoc => ⟨first, rfl, rfl, hdoc⟩
  · rw [pure_bind]
    refine visits_get fun c _ => ?_
    exact Visits.pure fun _ hdoc => ⟨first, rfl, rfl, hdoc⟩

theorem visits_field :
    Visits docs 0 anywhere field fun d vs => Shows docs d.documented vs := by
  have hone : Visits docs 0 anywhere declarator fun d vs => Shows docs [d.documented] vs := by
    refine visits_declarator.weaken ?_
    rintro d vs ⟨t, rfl, hstart, hdoc⟩
    rw [Declarator.documented, hstart, hdoc]
    exact .one t .nil
  unfold field
  refine visits_peek fun first => visits_takeDoc fun doc => ?_
  refine visits_passed still.of_fullType (spells_fullType_from first)
    (fun t ts h => List.length_pos_of_ne_nil h.1) fun type => ?_
  refine (visits_separated hone).bind fun ds => visits_expectMark _ fun terminator => ?_
  refine Visits.pure fun vs hvs _ hdoc => ?_
  rw [FieldDecl.documented, hdoc, List.append_nil, List.map_eq_flatMap]
  exact .one first hvs

theorem visits_parameter :
    Visits docs 0 anywhere parameter fun p vs => Shows docs [p.documented] vs := by
  unfold parameter
  refine visits_peek fun first => visits_takeDoc fun doc => ?_
  refine visits_passed still.of_fullType (spells_fullType_from first)
    (fun t ts h => List.length_pos_of_ne_nil h.1) fun type => ?_
  refine visits_declarator.bind fun d => Visits.pure ?_
  rintro _ ⟨t, rfl, hstart, hdoc⟩ ⟨_, -, htype⟩ hfirst
  rw [Parameter.documented, htype, hstart, hdoc, hfirst]
  exact .two first t .nil

/-- The node of a declaration with a heading comes first; its comment was taken before. -/
def ShowsHeaded (docs : List DocComment) (h : Heading) (nodes : List Documented)
    (vs : List Token) : Prop :=
  ∃ ns, nodes = ⟨[h.first.span.start], h.doc⟩ :: ns ∧ Shows docs ns vs

section Headed

variable (h : Heading)

theorem visits_record :
    Visits docs 1 (fun c => c.current.kind = .keyword .record ∨ c.current.kind = .keyword .error)
      (record h) fun d vs => ShowsHeaded docs h d.documented vs := by
  unfold record
  refine visits_advance (by rintro c (hc | hc) <;> simp [hc]) fun keyword => ?_
  refine visits_identifier fun name => visits_expectMark _ fun opening => ?_
  refine (visits_many visits_field).bind fun fs => visits_expectMark _ fun closing => ?_
  refine Visits.pure fun vs hvs => ⟨_, rfl, ?_⟩
  rw [List.append_nil]
  exact hvs

theorem visits_enumeration :
    Visits docs 1 (fun c => c.current.kind = .keyword .enum) (enumeration h)
      fun d vs => ShowsHeaded docs h [⟨[d.span.start], d.doc⟩] vs := by
  have hsymbols : Visits docs 0 anywhere (separated identifier) fun _ vs => vs = [] :=
    ((still.of_separated still.of_identifier).visits (spells_separated spells_name)
      fun _ _ _ => Nat.zero_le _).weaken fun _ _ hvs => hvs.1
  unfold enumeration
  refine visits_advance (fun c hc => by simp [hc]) fun keyword => ?_
  refine visits_identifier fun name => visits_expectMark _ fun opening => ?_
  refine visits_enclosed rfl hsymbols fun symbols => visits_expectMark _ fun closing => ?_
  refine visits_accept (by simp) fun b => ?_
  split
  · refine visits_identifier fun default => visits_expectMark _ fun terminator => ?_
    refine Visits.pure ?_
    rintro _ rfl
    exact ⟨[], rfl, .nil⟩
  · refine Visits.pure ?_
    rintro _ rfl
    exact ⟨[], rfl, .nil⟩

theorem visits_fixed :
    Visits docs 1 (fun c => c.current.kind = .keyword .fixed) (fixed h)
      fun d vs => ShowsHeaded docs h [⟨[d.span.start], d.doc⟩] vs := by
  unfold fixed
  refine visits_advance (fun c hc => by simp [hc]) fun keyword => ?_
  refine visits_identifier fun name => visits_expectMark _ fun opening => ?_
  refine visits_still (still.of_expect _) (spells_expect_only (by simp)) fun size => ?_
  refine visits_expectMark _ fun closing => visits_expectMark _ fun terminator => ?_
  exact Visits.pure ⟨[], rfl, .nil⟩

theorem visits_message :
    Visits docs 1 anywhere (message h) fun d vs => ShowsHeaded docs h d.documented vs := by
  have hparameters : Visits docs 0 anywhere (separated parameter)
      fun ps vs => Shows docs (ps.map Parameter.documented) vs := by
    refine (visits_separated visits_parameter).weaken fun ps vs hvs => ?_
    rwa [List.map_eq_flatMap]
  unfold message
  refine visits_passed still.of_resultType spells_resultType ?_ fun result => ?_
  · rintro result ts ⟨hresult, hts⟩
    obtain ⟨t, more, htokens, -⟩ := begins_resultType hresult
    rw [htokens] at hts
    obtain ⟨u, us, -, -, rfl⟩ := List.forall₂_cons_left_iff.mp hts
    simp
  refine visits_identifier fun name => visits_expectMark _ fun opening => ?_
  refine visits_enclosed .nil hparameters fun ps => visits_expectMark _ fun closing => ?_
  have hshows (vs : List Token) (hvs : Shows docs (ps.map Parameter.documented) vs)
      (oneway : Bool) (errors : Option (List Identifier)) (terminator : Token) :
      ShowsHeaded docs h (MessageDecl.documented ⟨h.doc, h.annotations, result, name, ps, oneway,
        errors, h.first.span.to terminator.span⟩) (vs ++ []) := by
    rw [List.append_nil]
    exact ⟨_, rfl, hvs⟩
  refine visits_accept (by simp) fun isOneWay => ?_
  split
  · rw [pure_bind]
    refine visits_expectMark _ fun terminator => Visits.pure ?_
    exact fun vs hvs _ => hshows vs hvs _ _ _
  · refine visits_still still.of_thrown spells_thrown fun errors => ?_
    refine visits_expectMark _ fun terminator => Visits.pure ?_
    exact fun vs hvs _ => hshows vs hvs _ _ _

end Headed

/-- What a declaration that was read says, if there is one. -/
def optionalNodes (o : Option Declaration) : List Documented :=
  o.toList.flatMap Declaration.documented

theorem visits_headed {pre pre' : Cursor → Prop} {x : Reader α} {g : α → Declaration} {h : Heading}
    (hx : Visits docs 1 pre x fun a vs => ShowsHeaded docs h (g a).documented vs)
    (hpre : ∀ c, pre' c → pre c) :
    Visits docs 1 pre' (x >>= fun a => pure (some (g a))) fun o vs =>
      h.doc = h.first.documentation docs → Shows docs (optionalNodes o) (h.first :: vs) := by
  refine (hx.before hpre).bind fun a => Visits.pure ?_
  rintro vs ⟨ns, hnodes, hvs⟩ hdoc
  rw [optionalNodes, Option.toList_some, List.flatMap_singleton, hnodes, hdoc, List.append_nil]
  exact .one h.first hvs

theorem visits_declaration (allowMessages : Bool) :
    Visits docs 0 anywhere (declaration allowMessages)
      fun o vs => Shows docs (optionalNodes o) vs := by
  unfold declaration
  refine visits_peek fun first => visits_isAt ?_ (visits_takeDoc fun doc => ?_)
  · refine visits_still still.of_importDecl
      (spells_importDecl.mono (fun c hc => kind_of_isAt hc.2) fun _ _ h => h) fun d => ?_
    exact Visits.pure .nil
  refine visits_still still.of_annotations spells_annotations fun as => visits_get fun c _ => ?_
  let heading : Heading := ⟨as, doc, first⟩
  split
  · refine visits_failed ?_
    rintro _ rfl hnone
    simp_all
  split
  · rename_i hkind
    exact visits_headed (h := heading) (visits_record _) (by rintro _ rfl; exact .inl hkind)
  · rename_i hkind
    exact visits_headed (h := heading) (visits_record _) (by rintro _ rfl; exact .inr hkind)
  · rename_i hkind
    exact visits_headed (h := heading) (visits_enumeration _) (by rintro _ rfl; exact hkind)
  · rename_i hkind
    exact visits_headed (h := heading) (visits_fixed _) (by rintro _ rfl; exact hkind)
  · split
    · exact visits_headed (h := heading) (visits_message _) fun _ _ => trivial
    · exact visits_fail fun c => .mismatch c.current _

theorem flatMap_optionalNodes (os : List (Option Declaration)) :
    os.flatMap optionalNodes = (os.filterMap id).flatMap Declaration.documented := by
  induction os with
  | nil => rfl
  | cons o os ih => cases o <;> simp [optionalNodes, ih]

theorem visits_declarations (allowMessages : Bool) (test : Cursor → Bool) :
    Visits docs 0 anywhere (many test (declaration allowMessages))
      fun os vs => Shows docs ((os.filterMap id).flatMap Declaration.documented) vs := by
  refine (visits_many (visits_declaration allowMessages)).weaken fun os vs hvs => ?_
  rwa [← flatMap_optionalNodes]

theorem visits_protocol (h : Heading) :
    Visits docs 1 anywhere (protocol h) fun b vs => ShowsHeaded docs h b.documented vs := by
  unfold protocol
  refine visits_passed (still.of_expect _) (spells_expect_only (by simp)) ?_ fun keyword => ?_
  · rintro a ts ⟨t, rfl, -⟩
    exact Nat.le_refl _
  refine visits_identifier fun name => visits_expectMark _ fun opening => ?_
  refine (visits_declarations true _).bind fun os => visits_expectMark _ fun closing => ?_
  refine Visits.pure fun vs hvs _ => ?_
  rw [List.append_nil]
  exact ⟨_, rfl, hvs⟩

theorem visits_schemas :
    Visits docs 0 anywhere schemas fun b vs => Shows docs b.documented vs := by
  have hdeclarations (space : Option Identifier) (main : Option TypeNode) :
      Visits docs 0 anywhere (do
        let os ← many (fun c => c.failure.isNone && !c.atEnd) (declaration false)
        pure (SourceUnit.Body.schemas space main (os.filterMap id)))
        fun b vs => Shows docs b.documented vs := by
    refine (visits_declarations false _).bind fun os => Visits.pure fun vs hvs => ?_
    rwa [List.append_nil]
  have hmain (space : Option Identifier) : Visits docs 0 anywhere (do
      let b ← accept (.keyword .schema)
      if b = true then
        let t ← fullType
        let _ ← expectMark .semicolon
        let main ← pure (some t)
        let os ← many (fun c => c.failure.isNone && !c.atEnd) (declaration false)
        pure (SourceUnit.Body.schemas space main (os.filterMap id))
      else
        let main ← pure none
        let os ← many (fun c => c.failure.isNone && !c.atEnd) (declaration false)
        pure (SourceUnit.Body.schemas space main (os.filterMap id)))
      fun b vs => Shows docs b.documented vs := by
    refine visits_accept (by simp) fun b => ?_
    split
    · refine visits_still still.of_fullType spells_fullType fun t => ?_
      exact visits_expectMark _ fun _ => hdeclarations space (some t)
    · exact hdeclarations space none
  unfold schemas
  refine visits_accept (by simp) fun b => ?_
  split
  · exact visits_identifier fun name => visits_expectMark _ fun _ => hmain (some name)
  · exact hmain none

end Declarations

section Units

/-- The places of the comments that have not been taken. -/
def orphansOf (docs : List DocComment) (used : List Nat) : List Span :=
  (docs.zipIdx.filter fun (_, i) => !used.contains i).map fun (d, _) => d.span

theorem conclude_run {x : Reader SourceUnit.Body} {c : Cursor}
    (hend : ((x >>= conclude).run c).2.failure = none) :
    (x.run c).2.failure = none ∧ ((x >>= conclude).run c).1 =
      ⟨(x.run c).1, orphansOf (x.run c).2.docs (x.run c).2.used⟩ := by
  have hrun : (x >>= conclude).run c = (conclude (x.run c).1).run (x.run c).2 := rfl
  rw [hrun] at hend ⊢
  unfold conclude at hend ⊢
  simp only [StateT.run_bind, StateT.run_get, pure_bind] at hend ⊢
  split at hend
  · exact absurd hend (failure_fail_ne_none _ _)
  · next hcondition =>
    rw [if_neg hcondition]
    exact ⟨hend, rfl⟩

/-- The nodes take comments of tokens, and all other comments become orphans. -/
def TakesFrom (c : Cursor) (u : SourceUnit) : Prop :=
  ∃ vs, vs.Sublist c.rest ∧ Shows c.docs u.body.documented vs ∧
    u.orphans = orphansOf c.docs (vs.filterMap (·.doc)).reverse

variable {c : Cursor}

theorem takesFrom_schemas (hused : c.used = []) (hclear : Clear c.docs.length c.rest [])
    (hend : ((schemas >>= conclude).run c).2.failure = none) :
    TakesFrom c ((schemas >>= conclude).run c).1 := by
  obtain ⟨hmid, hvalue⟩ := conclude_run hend
  rw [← hused] at hclear
  obtain ⟨ts, vs, hr, -, hvs, hdocs, hused', hshows⟩ := (visits_schemas c trivial hmid).2 rfl hclear
  rw [hused, List.append_nil] at hused'
  rw [hvalue, hdocs, hused']
  exact ⟨vs, hvs.trans (hr ▸ List.sublist_append_left ts _), hshows, rfl⟩

/-- The comment of a protocol is that of the first token, which is passed with the annotations or
with the keyword. -/
theorem takesFrom_protocol {h : Heading} {c' : Cursor} {ts : List Token}
    (hr : c.rest = ts ++ c'.rest) (hdocs : c'.docs = c.docs)
    (hused : c'.used = c.current.doc.toList) (hfirst : h.first = c.current)
    (hdoc : h.doc = c.current.documentation c'.docs)
    (hclear : Clear c.docs.length (c.rest.drop 1) c.current.doc.toList)
    (hend : ((protocol h >>= conclude).run c').2.failure = none) :
    TakesFrom c ((protocol h >>= conclude).run c').1 := by
  obtain ⟨hmid, hvalue⟩ := conclude_run hend
  rw [← hused] at hclear
  obtain ⟨ts', vs, hr', hskip, hvs, hdocs', hused', ns, hnodes, hshows⟩ :=
    (visits_protocol h c' trivial hmid).2 hdocs
      (hclear.sublist (hr ▸ drop_sublist_append 1 ts c'.rest))
  have hrest : c.rest.drop 1 = (ts ++ ts').drop 1 ++ ((protocol h).run c').2.rest := by
    rw [hr, hr', ← List.append_assoc, List.drop_append_of_le_length]
    rw [List.length_append]
    omega
  have hcurrent : c.rest = c.current :: c.rest.drop 1 := by
    obtain ⟨t, rest, hcons⟩ := List.exists_cons_of_length_pos
      (show 0 < c.rest.length by rw [hr, hr']; simp only [List.length_append]; omega)
    rw [Cursor.current, hcons]
    rfl
  refine ⟨c.current :: vs, ?_, ?_, ?_⟩
  · rw [hcurrent, hrest]
    exact .cons_cons _ ((hvs.trans (drop_sublist_append 1 ts ts')).trans
      (List.sublist_append_left _ _))
  · rw [hvalue, hnodes, hfirst, hdoc, hdocs]
    exact .one c.current hshows
  · rw [hvalue, hdocs', hused', hused, ← reverse_filterMap_singleton, ← List.reverse_append,
      ← List.filterMap_append]
    rfl

/-- The nodes of a source that is read take the comments of tokens, and all other comments are
listed as orphans. -/
theorem takesFrom_sourceUnit (hused : c.used = []) (hclear : Clear c.docs.length c.rest [])
    (hend : (sourceUnit.run c).2.failure = none) : TakesFrom c (sourceUnit.run c).1 := by
  rw [sourceUnit_eq, again_run] at hend ⊢
  split at hend
  · next hfailed => exact absurd hend (Option.isSome_iff_ne_none.mp hfailed)
  next hgood =>
  rw [if_neg hgood]
  split at hend
  · next hprotocol =>
    rw [if_pos hprotocol]
    obtain ⟨hdocs₁, hused₁⟩ := still.of_annotations c
    have hfailure : (annotations.run c).2.failure = none := by
      simpa using hgood
    have hspells : Spells anywhere annotations _ := spells_annotations
    obtain ⟨-, ts, hr, -, -⟩ := hspells c trivial hfailure
    rw [← hused] at hclear
    obtain ⟨hunused, hnext⟩ := clear_current hclear
    have htake := takeDoc_run_of_unused (t := c.current) (c := (annotations.run c).2)
      (by rwa [hdocs₁, hused₁])
    rw [hused₁, hused, List.append_nil] at htake
    rw [hused, List.append_nil] at hnext
    rw [StateT.run_bind, htake] at hend ⊢
    exact takesFrom_protocol hr hdocs₁ rfl rfl rfl hnext hend
  · next hother =>
    rw [if_neg hother]
    exact takesFrom_schemas hused hclear hend

end Units

end Reader

end AvroIdl
