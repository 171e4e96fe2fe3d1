import AvroIdl.Proofs.Printing
import Mathlib.Data.List.Forall2

/-!
# Printed trees are read

A reader takes a list of printed tokens if it passes exactly the tokens that match them, whatever
their places and comments are, provided that the token after them does not belong to what is read.
The rules follow the steps of a reader, and there is one theorem for every construct.
-/
namespace AvroIdl

open Token (ofMark ofName)

namespace Reader

variable {α β : Type}

section Runs

variable {c : Cursor} {k : Token.Kind}

theorem next_eq {t : Token} {rest : List Token} (hr : c.rest = t :: rest)
    (hk : t.kind ≠ .endOfFile) : c.next = { c with previous := t, rest := rest } := by
  have hcurrent : c.current = t := by simp [Cursor.current, hr]
  simp [Cursor.next, Cursor.atEnd, hcurrent, hk, hr]

theorem accept_run_of_isAt (h : c.isAt k = true) : (accept k).run c = (true, c.next) := by
  change (if c.isAt k = true then _ else _ : Reader Bool).run c = _
  rw [if_pos h]
  rfl

theorem accept_run_of_not_isAt (h : c.isAt k = false) : (accept k).run c = (false, c) := by
  change (if c.isAt k = true then _ else _ : Reader Bool).run c = _
  rw [if_neg (by simp [h])]
  rfl

theorem expect_run_of_isAt (h : c.isAt k = true) :
    (expect k).run c = (c.next.previous, c.next) := by
  change (if c.isAt k = true then _ else _ : Reader Token).run c = _
  rw [if_pos h]
  rfl

theorem expect_run_of_not_isAt (h : c.isAt k = false) :
    (expect k).run c =
      ((c.fail (.mismatch c.current [k])).current, c.fail (.mismatch c.current [k])) := by
  change (if c.isAt k = true then _ else _ : Reader Token).run c = _
  rw [if_neg (by simp [h])]
  rfl

theorem identifier_run_of_not_isAtName (h : c.isAtName = false) :
    identifier.run c = ({}, c.fail (.mismatch c.current [.identifier])) := by
  change (if c.isAtName = true then _ else _ : Reader Identifier).run c = _
  rw [if_neg (by simp [h])]
  rfl

theorem identifier_run_of_isAtName (h : c.isAtName = true) :
    identifier.run c =
      (⟨c.next.previous.text, c.next.previous.escaped, c.next.previous.span⟩, c.next) := by
  change (if c.isAtName = true then _ else _ : Reader Identifier).run c = _
  rw [if_pos h]
  rfl

theorem takeDoc_run (t : Token) (c : Cursor) :
    ∃ doc used, (takeDoc t).run c = (doc, { c with used := used }) := by
  unfold takeDoc
  simp only [StateT.run_bind, StateT.run_get, pure_bind]
  split
  · exact ⟨none, c.used, rfl⟩
  · split
    · exact ⟨none, c.used, rfl⟩
    · split
      · exact ⟨none, c.used, rfl⟩
      · exact ⟨_, _, rfl⟩

end Runs

/-- The kind that comes first: that of the first printed token, or of what follows if there is
none. -/
def Starts (printed : List Token) (next : Token.Kind → Prop) : Token.Kind → Prop :=
  match printed with
  | [] => next
  | t :: _ => (· = t.kind)

/-- There is a first printed token, and its kind has the property. -/
def Begins (p : Token.Kind → Prop) (printed : List Token) : Prop :=
  ∃ t ts, printed = t :: ts ∧ p t.kind

/-- Reading tokens that match the printed ones, with a token of an allowed kind after them, gives a
value with the property and stops right after them. -/
def Takes (x : Reader α) (P : α → Prop) (printed : List Token) (next : Token.Kind → Prop) : Prop :=
  ∀ c ts rest, c.failure = none → c.rest = ts ++ rest → List.Forall₂ Token.Matches printed ts →
    next (rest.headD {}).kind →
    P (x.run c).1 ∧ (x.run c).2.failure = none ∧ (x.run c).2.rest = rest

/-- Whatever comes next. -/
def anything : Token.Kind → Prop := fun _ => True

section Starts

variable {p q : Token.Kind → Prop} {xs : List Token} {next : Token.Kind → Prop}
  {k : Token.Kind}

theorem Begins.append (h : Begins p xs) (ys : List Token) : Begins p (xs ++ ys) := by
  obtain ⟨t, ts, rfl, ht⟩ := h
  exact ⟨t, ts ++ ys, rfl, ht⟩

theorem Begins.mono (h : Begins p xs) (hq : ∀ k, p k → q k) : Begins q xs := by
  obtain ⟨t, ts, hts, ht⟩ := h
  exact ⟨t, ts, hts, hq _ ht⟩

theorem Begins.starts (h : Begins p xs) (hk : Starts xs next k) : p k := by
  obtain ⟨t, ts, rfl, ht⟩ := h
  rw [show k = t.kind from hk]
  exact ht

/-- Repeated parts begin with one of them, or there is none. -/
theorem starts_flatMap {ι : Type} {items : List ι} {print : ι → List Token}
    (hitems : ∀ i ∈ items, Begins p (print i)) (hk : Starts (items.flatMap print) next k) :
    p k ∨ next k := by
  cases items with
  | nil => exact .inr hk
  | cons i items =>
    rw [List.flatMap_cons] at hk
    exact .inl (((hitems i (by simp)).append _).starts hk)

end Starts

theorem exists_append_of_forall₂ {R : α → β → Prop} {xs ys : List α} {zs : List β}
    (h : List.Forall₂ R (xs ++ ys) zs) :
    ∃ front back, zs = front ++ back ∧ List.Forall₂ R xs front ∧ List.Forall₂ R ys back := by
  refine ⟨zs.take xs.length, zs.drop xs.length, (List.take_append_drop _ _).symm, ?_, ?_⟩
  · exact (List.forall₂_take_append zs xs ys h.flip).flip
  · exact (List.forall₂_drop_append zs xs ys h.flip).flip

section Rules

variable {x y : Reader α} {f : α → Reader β} {P : α → Prop} {Q : β → Prop}
  {printed printed' : List Token} {next next' : Token.Kind → Prop} {k : Token.Kind} {t : Token}

theorem starts_current {c : Cursor} {ts rest : List Token} (hr : c.rest = ts ++ rest)
    (hm : List.Forall₂ Token.Matches printed ts) (hn : next (rest.headD {}).kind) :
    Starts printed next c.current.kind := by
  cases hm with
  | nil =>
    rw [Cursor.current, hr]
    exact hn
  | cons h _ =>
    rw [Cursor.current, hr]
    exact h.kind

theorem Takes.bind (hx : Takes x P printed next)
    (hnext : ∀ k, Starts printed' next' k → next k)
    (hf : ∀ a, P a → Takes (f a) Q printed' next') :
    Takes (x >>= f) Q (printed ++ printed') next' := by
  intro c ts rest hc hr hm hn
  obtain ⟨front, back, rfl, hfront, hback⟩ := exists_append_of_forall₂ hm
  rw [List.append_assoc] at hr
  have hstart : next ((back ++ rest).headD {}).kind := by
    refine hnext _ ?_
    cases hback with
    | nil => exact hn
    | cons h _ => exact h.kind
  obtain ⟨hP, hfailure, hrest⟩ := hx c front (back ++ rest) hc hr hfront hstart
  exact hf _ hP _ back rest hfailure hrest hback hn

theorem Takes.pure {a : α} (h : P a) : Takes (pure a) P [] next := by
  intro c ts rest hc hr hm hn
  cases hm
  exact ⟨h, hc, hr⟩

theorem Takes.finish (hx : Takes x P printed next) (hf : ∀ a, P a → Takes (f a) Q [] next) :
    Takes (x >>= f) Q printed next := by
  rw [← List.append_nil printed]
  exact hx.bind (fun _ h => h) hf

theorem Takes.map {g : α → β} (hx : Takes x P printed next) (hg : ∀ a, P a → Q (g a)) :
    Takes (g <$> x) Q printed next := by
  intro c ts rest hc hr hm hn
  obtain ⟨h, hrest⟩ := hx c ts rest hc hr hm hn
  exact ⟨hg _ h, hrest⟩

theorem Takes.mono (hx : Takes x P printed next) {P' : α → Prop} (hP : ∀ a, P a → P' a)
    (hnext : ∀ k, next' k → next k) : Takes x P' printed next' := by
  intro c ts rest hc hr hm hn
  obtain ⟨h, hrest⟩ := hx c ts rest hc hr hm (hnext _ hn)
  exact ⟨hP _ h, hrest⟩

theorem Takes.before (hx : Takes x P printed anything) : Takes x P printed next :=
  hx.mono (fun _ h => h) fun _ _ => trivial

/-- The state is only looked at: nothing has failed, and the kind of the current token is known. -/
theorem takes_get {f : Cursor → Reader β}
    (h : ∀ c, c.failure = none → Starts printed next c.current.kind → Takes (f c) Q printed next) :
    Takes (get >>= f) Q printed next := by
  intro c ts rest hc hr hm hn
  exact h c hc (starts_current hr hm hn) c ts rest hc hr hm hn

theorem takes_peek {f : Token → Reader β} (h : ∀ t, Takes (f t) Q printed next) :
    Takes (peek >>= f) Q printed next := by
  intro c ts rest hc hr hm hn
  exact h c.current c ts rest hc hr hm hn

theorem takes_isAt {f : Bool → Reader β} (b : Bool)
    (hk : ∀ kind, Starts printed next kind → (kind == k) = b) (h : Takes (f b) Q printed next) :
    Takes (isAt k >>= f) Q printed next := by
  intro c ts rest hc hr hm hn
  have hb : c.isAt k = b := by
    rw [Cursor.isAt, hc, hk _ (starts_current hr hm hn)]
    rfl
  have hrun : (isAt k >>= f).run c = (f b).run c := by
    rw [← hb]
    rfl
  rw [hrun]
  exact h c ts rest hc hr hm hn

theorem takes_isAt_then {x y : Reader β} (hk : ∀ kind, Starts printed next kind → kind = k)
    (h : Takes x Q printed next) :
    Takes (isAt k >>= fun b => if b = true then x else y) Q printed next :=
  takes_isAt true (fun kind hs => by simp [hk kind hs]) h

theorem takes_isAt_else {x y : Reader β} (hk : ∀ kind, Starts printed next kind → kind ≠ k)
    (h : Takes y Q printed next) :
    Takes (isAt k >>= fun b => if b = true then x else y) Q printed next :=
  takes_isAt false (fun kind hs => by simp [hk kind hs]) h

theorem takes_accept {f : Bool → Reader β} (hk : t.kind = k) (hne : k ≠ .endOfFile)
    (h : Takes (f true) Q printed next) : Takes (accept k >>= f) Q (t :: printed) next := by
  intro c ts rest hc hr hm hn
  obtain ⟨first, more, hfirst, hmore, rfl⟩ := List.forall₂_cons_left_iff.mp hm
  have hkind : first.kind = k := hfirst.kind.trans hk
  have hat : c.isAt k = true := by simp [Cursor.isAt, hc, Cursor.current, hr, hkind]
  have hrun : (accept k >>= f).run c = (f true).run c.next := by
    rw [StateT.run_bind, accept_run_of_isAt hat]
    rfl
  rw [hrun, next_eq hr (hkind ▸ hne)]
  exact h _ more rest hc rfl hmore hn

theorem takes_decline {f : Bool → Reader β} (hk : ∀ kind, Starts printed next kind → kind ≠ k)
    (h : Takes (f false) Q printed next) : Takes (accept k >>= f) Q printed next := by
  intro c ts rest hc hr hm hn
  have hat : c.isAt k = false := by
    simp [Cursor.isAt, hk _ (starts_current hr hm hn)]
  have hrun : (accept k >>= f).run c = (f false).run c := by
    rw [StateT.run_bind, accept_run_of_not_isAt hat]
    rfl
  rw [hrun]
  exact h c ts rest hc hr hm hn

theorem takes_accept_then {x y : Reader β} (hk : t.kind = k) (hne : k ≠ .endOfFile)
    (h : Takes x Q printed next) :
    Takes (accept k >>= fun b => if b = true then x else y) Q (t :: printed) next :=
  takes_accept hk hne h

theorem takes_accept_else {x y : Reader β} (hk : ∀ kind, Starts printed next kind → kind ≠ k)
    (h : Takes y Q printed next) :
    Takes (accept k >>= fun b => if b = true then x else y) Q printed next :=
  takes_decline hk h

theorem takes_accept_skip {x y : Reader β} (hk : t.kind ≠ k) (h : Takes y Q (t :: printed) next) :
    Takes (accept k >>= fun b => if b = true then x else y) Q (t :: printed) next :=
  takes_accept_else (fun kind hkind => by rwa [show kind = t.kind from hkind]) h

/-- After a token was passed it is the previous one. -/
theorem takes_accept_get {g : Cursor → Reader β} {y : Reader β} (hk : t.kind = k)
    (hne : k ≠ .endOfFile) (h : ∀ c, Token.Matches t c.previous → Takes (g c) Q printed next) :
    Takes (accept k >>= fun b => if b = true then get >>= g else y) Q (t :: printed) next := by
  intro c ts rest hc hr hm hn
  obtain ⟨first, more, hfirst, hmore, rfl⟩ := List.forall₂_cons_left_iff.mp hm
  have hkind : first.kind = k := hfirst.kind.trans hk
  have hat : c.isAt k = true := by simp [Cursor.isAt, hc, Cursor.current, hr, hkind]
  have hrun : (accept k >>= fun b => if b = true then get >>= g else y).run c =
      (g c.next).run c.next := by
    rw [StateT.run_bind, accept_run_of_isAt hat]
    rfl
  rw [hrun, next_eq hr (hkind ▸ hne)]
  exact h _ hfirst _ more rest hc rfl hmore hn

theorem takes_expect {f : Token → Reader β} (hk : t.kind = k) (hne : k ≠ .endOfFile)
    (h : ∀ a, Token.Matches t a → Takes (f a) Q printed next) :
    Takes (expect k >>= f) Q (t :: printed) next := by
  intro c ts rest hc hr hm hn
  obtain ⟨first, more, hfirst, hmore, rfl⟩ := List.forall₂_cons_left_iff.mp hm
  have hkind : first.kind = k := hfirst.kind.trans hk
  have hat : c.isAt k = true := by simp [Cursor.isAt, hc, Cursor.current, hr, hkind]
  have hrun : (expect k >>= f).run c = (f c.next.previous).run c.next := by
    rw [StateT.run_bind, expect_run_of_isAt hat]
    rfl
  rw [hrun, next_eq hr (hkind ▸ hne)]
  exact h first hfirst _ more rest hc rfl hmore hn

theorem takes_expectMark {f : Token → Reader β} (m : Mark)
    (h : ∀ a, Takes (f a) Q printed next) :
    Takes (expectMark m >>= f) Q (ofMark m :: printed) next :=
  takes_expect rfl (by simp) fun a _ => h a

theorem takes_advance {f : Token → Reader β} (hne : t.kind ≠ .endOfFile)
    (h : ∀ a, Token.Matches t a → Takes (f a) Q printed next) :
    Takes (advance >>= f) Q (t :: printed) next := by
  intro c ts rest hc hr hm hn
  obtain ⟨first, more, hfirst, hmore, rfl⟩ := List.forall₂_cons_left_iff.mp hm
  have hrun : (advance >>= f).run c = (f c.next.previous).run c.next := rfl
  rw [hrun, next_eq hr (hfirst.kind ▸ hne)]
  exact h first hfirst _ more rest hc rfl hmore hn

theorem takes_name {f : Identifier → Reader β} {text : Text} {escaped : Bool}
    (h : ∀ i, i.text = text → i.escaped = escaped → Takes (f i) Q printed next) :
    Takes (identifier >>= f) Q (ofName text escaped :: printed) next := by
  intro c ts rest hc hr hm hn
  obtain ⟨first, more, hfirst, hmore, rfl⟩ := List.forall₂_cons_left_iff.mp hm
  have hkind : first.kind = .identifier := hfirst.kind
  have hat : c.isAtName = true := by
    simp [Cursor.isAtName, hc, Cursor.current, hr, hkind, Token.Kind.isName]
  have hrun : (identifier >>= f).run c =
      (f ⟨c.next.previous.text, c.next.previous.escaped, c.next.previous.span⟩).run c.next := by
    rw [StateT.run_bind, identifier_run_of_isAtName hat]
    rfl
  obtain ⟨htext, hescaped⟩ := hfirst.text rfl
  rw [hrun, next_eq hr (by simp [hkind])]
  exact h _ htext hescaped _ more rest hc rfl hmore hn

theorem takes_takeDoc {f : Option Text → Reader β} (t : Token)
    (h : ∀ doc, Takes (f doc) Q printed next) : Takes (takeDoc t >>= f) Q printed next := by
  intro c ts rest hc hr hm hn
  obtain ⟨doc, used, hdoc⟩ := takeDoc_run t c
  have hrun : (takeDoc t >>= f).run c = (f doc).run { c with used := used } := by
    rw [StateT.run_bind, hdoc]
    rfl
  rw [hrun]
  exact h doc _ ts rest hc hr hm hn

end Rules

section Loops

variable {ι : Type} {part : Reader α} {R : ι → α → Prop} {print : ι → List Token} {items : List ι}
  {begins next mid : Token.Kind → Prop}

theorem takes_manyWithin {test : Cursor → Bool} {steps : Nat} (hsteps : items.length ≤ steps)
    (hpart : ∀ i ∈ items, Takes part (R i) (print i) mid)
    (hbegins : ∀ i ∈ items, Begins begins (print i))
    (hgo : ∀ c, c.failure = none → begins c.current.kind → test c = true)
    (hstop : ∀ c, next c.current.kind → test c = false)
    (hmid : ∀ k, begins k ∨ next k → mid k) :
    Takes (manyWithin test part steps) (List.Forall₂ R items) (items.flatMap print) next := by
  induction steps generalizing items with
  | zero =>
    have hnil : items = [] := List.length_eq_zero_iff.mp (by omega)
    subst hnil
    exact Takes.pure .nil
  | succ steps ih =>
    unfold manyWithin
    refine takes_get fun c hc hs => ?_
    cases items with
    | nil =>
      rw [if_neg (by simp [hstop c hs])]
      exact Takes.pure .nil
    | cons i items =>
      have hmore : items.length ≤ steps := by simpa using hsteps
      have hi : Begins begins (print i ++ items.flatMap print) :=
        (hbegins i (by simp)).append _
      rw [if_pos (hgo c hc (hi.starts (by simpa using hs))), List.flatMap_cons]
      refine (hpart i (by simp)).bind ?_ fun a ha => ?_
      · intro k hk
        exact hmid k (starts_flatMap (fun j hj => hbegins j (by simp [hj])) hk)
      have hrest := ih hmore (fun j hj => hpart j (by simp [hj]))
        fun j hj => hbegins j (by simp [hj])
      exact hrest.finish fun as has => Takes.pure (.cons ha has)

theorem length_le_flatMap (hbegins : ∀ i ∈ items, Begins begins (print i)) :
    items.length ≤ (items.flatMap print).length := by
  induction items with
  | nil => simp
  | cons i items ih =>
    obtain ⟨t, ts, hts, -⟩ := hbegins i (by simp)
    have hitems := ih fun j hj => hbegins j (by simp [hj])
    rw [List.flatMap_cons, hts]
    simp only [List.length_append, List.length_cons]
    omega

theorem takes_many {test : Cursor → Bool} (hpart : ∀ i ∈ items, Takes part (R i) (print i) mid)
    (hbegins : ∀ i ∈ items, Begins begins (print i))
    (hgo : ∀ c, c.failure = none → begins c.current.kind → test c = true)
    (hstop : ∀ c, next c.current.kind → test c = false)
    (hmid : ∀ k, begins k ∨ next k → mid k) :
    Takes (many test part) (List.Forall₂ R items) (items.flatMap print) next := by
  intro c ts rest hc hr hm hn
  have hcount := length_le_flatMap hbegins
  have hlength : items.length ≤ c.rest.length + 1 := by
    rw [hr, List.length_append, ← hm.length_eq]
    omega
  exact takes_manyWithin hlength hpart hbegins hgo hstop hmid c ts rest hc hr hm hn

theorem takes_separatedWithin {steps : Nat} (hsteps : items.length ≤ steps) (hne : items ≠ [])
    (hpart : ∀ i ∈ items, Takes part (R i) (print i) mid) (hcomma : mid (.mark .comma))
    (hnext : ∀ k, next k → mid k ∧ k ≠ .mark .comma) :
    Takes (separatedWithin part steps) (List.Forall₂ R items) (commas (items.map print)) next := by
  induction steps generalizing items with
  | zero => exact absurd (List.length_eq_zero_iff.mp (by omega)) hne
  | succ steps ih =>
    unfold separatedWithin
    cases items with
    | nil => exact absurd rfl hne
    | cons i items =>
      cases items with
      | nil =>
        rw [List.map_singleton, commas]
        refine ((hpart i (by simp)).mono (fun _ h => h) fun k hk => (hnext k hk).1).finish ?_
        intro a ha
        refine takes_accept_else (fun k hk => (hnext k hk).2) ?_
        exact Takes.pure (.cons ha .nil)
      | cons j items =>
        have hmore : (j :: items).length ≤ steps := by simpa using hsteps
        have hrest := ih hmore (by simp) fun i' hi' => hpart i' (by simp [hi'])
        have hprinted : commas ((i :: j :: items).map print) =
            print i ++ ofMark .comma :: commas ((j :: items).map print) := rfl
        rw [hprinted]
        refine (hpart i (by simp)).bind ?_ fun a ha => ?_
        · intro k hk
          rw [show k = .mark .comma from hk]
          exact hcomma
        refine takes_accept_then rfl (by simp) ?_
        exact hrest.finish fun as has => Takes.pure (.cons ha has)

theorem length_le_commas (tss : List (List Token)) : tss.length ≤ (commas tss).length + 1 := by
  induction tss with
  | nil => simp
  | cons ts tss ih =>
    cases tss with
    | nil => simp [commas]
    | cons us tss =>
      simp only [commas, List.length_append, List.length_cons] at ih ⊢
      omega

theorem takes_separated (hne : items ≠ []) (hpart : ∀ i ∈ items, Takes part (R i) (print i) mid)
    (hcomma : mid (.mark .comma)) (hnext : ∀ k, next k → mid k ∧ k ≠ .mark .comma) :
    Takes (separated part) (List.Forall₂ R items) (commas (items.map print)) next := by
  intro c ts rest hc hr hm hn
  have hlength : items.length ≤ c.rest.length + 1 := by
    have hcount := length_le_commas (items.map print)
    rw [List.length_map] at hcount
    rw [hr, List.length_append, ← hm.length_eq]
    omega
  exact takes_separatedWithin hlength hne hpart hcomma hnext c ts rest hc hr hm hn

theorem takes_separated_bind {g : List α → Reader β} {Q : β → Prop} {close : Token.Kind}
    {printed : List Token} (hclose : ∀ k, Starts printed next k → k = close) (hne : items ≠ [])
    (hpart : ∀ i ∈ items, Takes part (R i) (print i) mid) (hcomma : mid (.mark .comma))
    (hend : mid close ∧ close ≠ .mark .comma)
    (hg : ∀ as, List.Forall₂ R items as → Takes (g as) Q printed next) :
    Takes (separated part >>= g) Q (commas (items.map print) ++ printed) next := by
  refine (takes_separated hne hpart hcomma fun k hk => ?_).bind hclose hg
  rw [hk]
  exact hend

theorem begins_commas (hne : items ≠ []) (hitems : ∀ i ∈ items, Begins begins (print i)) :
    Begins begins (commas (items.map print)) := by
  cases items with
  | nil => exact absurd rfl hne
  | cons i items =>
    have hi := hitems i (by simp)
    cases items with
    | nil => exact hi
    | cons j items => exact hi.append _

/-- A list that may be empty and ends with a token that none of its parts begins with. -/
theorem takes_enclosed {g : List α → Reader β} {Q : β → Prop} {close : Token.Kind}
    {printed : List Token} (hclose : ∀ k, Starts printed next k → k = close)
    (hitems : ∀ i ∈ items, Begins (· ≠ close) (print i))
    (hpart : ∀ i ∈ items, Takes part (R i) (print i) mid) (hcomma : mid (.mark .comma))
    (hend : mid close ∧ close ≠ .mark .comma)
    (hg : ∀ as, List.Forall₂ R items as → Takes (g as) Q printed next) :
    Takes (isAt close >>= fun b => if b = true then pure [] >>= g else separated part >>= g) Q
      (commas (items.map print) ++ printed) next := by
  cases items with
  | nil =>
    refine takes_isAt_then hclose ?_
    rw [pure_bind]
    exact hg [] .nil
  | cons i items =>
    have hbegins := (begins_commas (by simp) hitems).append printed
    refine takes_isAt_else (fun k hk => hbegins.starts hk) ?_
    exact takes_separated_bind hclose (by simp) hpart hcomma hend hg

end Loops

end Reader

end AvroIdl
