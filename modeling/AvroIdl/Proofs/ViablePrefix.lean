import AvroIdl.Proofs.Spelling
import AvroIdl.Proofs.TokenGrammar

/-!
# Readers that decide a language

A reader decides a language in front of what may follow if it passes the one word of the language
that the tokens start with, and otherwise stops at the first token with which no word can go on.
The rules below build such readers along the rules of the grammar: a sequence is read in order, each
part in front of the language of the others, and of a sum one token picks the summand.
-/
namespace AvroIdl

open TokenGrammar Computability

/-- The end of the file is ahead. -/
def Cursor.HasEnd (c : Cursor) : Prop := ∃ t ∈ c.rest, t.kind = .endOfFile

theorem Cursor.HasEnd.rest_eq_cons {c : Cursor} (h : c.HasEnd) :
    ∃ t ts, c.rest = t :: ts ∧ c.current = t := by
  obtain ⟨t, ht, -⟩ := h
  cases hr : c.rest with
  | nil => simp [hr] at ht
  | cons t ts => exact ⟨t, ts, rfl, by simp [Cursor.current, hr]⟩

def kindsOf (ts : List Token) : List Token.Kind := ts.map (·.kind)

theorem kindsOf_append (ts us : List Token) : kindsOf (ts ++ us) = kindsOf ts ++ kindsOf us :=
  List.map_append

namespace TokenGrammar

/-- Tokens that have the property lead every word. -/
def Leads (P : Token.Kind → Prop) (L : Kinds) : Prop := ∀ w ∈ L, ∃ k v, w = k :: v ∧ P k

section Leads

variable {P Q : Token.Kind → Prop} {L M : Kinds} {k : Token.Kind}

theorem Leads.mono (h : Leads P L) (hPQ : ∀ k, P k → Q k) : Leads Q L := by
  intro w hw
  obtain ⟨k, v, rfl, hk⟩ := h w hw
  exact ⟨k, v, rfl, hPQ k hk⟩

theorem Leads.mul (h : Leads P L) (M : Kinds) : Leads P (L * M) := by
  intro w hw
  obtain ⟨u, hu, v, -, rfl⟩ := Language.mem_mul.mp hw
  obtain ⟨k, u', rfl, hk⟩ := h u hu
  exact ⟨k, u' ++ v, rfl, hk⟩

theorem Leads.add (hL : Leads P L) (hM : Leads P M) : Leads P (L + M) :=
  fun w hw => hw.elim (hL w) (hM w)

theorem leads_oneOf (h : ∀ k, Q k → P k) : Leads P (oneOf Q) := by
  rintro w ⟨k, hk, rfl⟩
  exact ⟨k, [], rfl, h k hk⟩

@[simp]
theorem leads_sup_iff : Leads P (L ⊔ M) ↔ Leads P L ∧ Leads P M :=
  ⟨fun h => ⟨fun w hw => h w (.inl hw), fun w hw => h w (.inr hw)⟩, fun h => h.1.add h.2⟩

@[simp]
theorem leads_one (h : P k) : Leads P (one k) := by
  rintro w rfl
  exact ⟨k, [], rfl, h⟩

theorem Leads.opt_mul (hL : Leads P L) (hM : Leads P M) : Leads P (opt L * M) := by
  rw [opt, add_mul, one_mul]
  exact (hL.mul M).add hM

theorem Leads.kstar_mul (hL : Leads P L) (hM : Leads P M) : Leads P (L∗ * M) := by
  rw [← Language.one_add_self_mul_kstar_eq_kstar, add_mul, one_mul, mul_assoc]
  exact hM.add (hL.mul _)

theorem Leads.list (hL : Leads P L) : Leads P (list L) := hL.mul _

@[simp]
theorem leads_one_mul (h : P k) (L : Kinds) : Leads P (one k * L) := (leads_one h).mul L

theorem seq_nil : seq [] = 1 := rfl

theorem seq_cons (Ls : List Kinds) : seq (L :: Ls) = L * seq Ls := List.prod_cons

theorem mem_seq_cons {Ls : List Kinds} {u v : List Token.Kind} (hu : u ∈ L) (hv : v ∈ seq Ls) :
    u ++ v ∈ seq (L :: Ls) := by
  rw [seq_cons]
  exact Language.append_mem_mul hu hv

theorem nil_mem_opt (L : Kinds) : [] ∈ opt L := .inr rfl

theorem Leads.seq (hL : Leads P L) (Ls : List Kinds) : Leads P (seq (L :: Ls)) := by
  rw [seq_cons]
  exact hL.mul _

theorem apart_le (kinds : List Token.Kind) (L : Kinds) : apart kinds L ≤ L := fun _ h => h.1

theorem leads_apart {kinds : List Token.Kind} (hL : Leads P L) :
    Leads (fun k => P k ∧ k ∉ kinds) (apart kinds L) := by
  rintro w ⟨hw, happart⟩
  obtain ⟨k, v, rfl, hk⟩ := hL w hw
  exact ⟨k, v, rfl, hk, fun hmem => happart k hmem rfl⟩

end Leads

end TokenGrammar

namespace Reader

variable {α β : Type}

/-- What has become of a reading of `L` in front of `N`: it has passed the one word that the tokens
start with; or it has stopped at a token such that those before it can go on to a word, but none
starts with it as well; or it has met too many levels. -/
inductive Decided (L N : Kinds) (c d : Cursor) : Prop
  | reads (u : List Token) (k : Token) (v : List Token) (passed : c.rest = u ++ k :: v)
      (rest : d.rest = k :: v) (unfailed : d.failure = none) (ahead : d.HasEnd)
      (mem : kindsOf u ∈ L)
      (only : ∀ w ∈ L, ∀ z ∈ N, kindsOf u ++ [k.kind] <+: w ++ z → w = kindsOf u)
  | refuses (u : List Token) (k : Token) (v : List Token) (passed : c.rest = u ++ k :: v)
      (expected : List Token.Kind) (failed : d.failure = some (.mismatch k expected, k.span))
      (viable : u ≠ [] → ∃ w, kindsOf u ++ w ∈ L)
      (none : ∀ w ∈ L, ∀ z ∈ N, ¬kindsOf u ++ [k.kind] <+: w ++ z)
  | deep (p : SyntaxProblem) (span : Span) (nesting : p.kind ≠ .syntaxError)
      (failed : d.failure = some (p, span))

/-- From wherever `pre` holds and the end of the file is ahead, the reader decides `L` in front of
`N`, and it leaves earlier failures alone. -/
structure Decides (pre : Cursor → Prop) (x : Reader α) (L N : Kinds) : Prop where
  nonempty : ∃ w, w ∈ L
  failed : ∀ c, c.failure ≠ none → (x.run c).2.failure = c.failure
  decided : ∀ c, pre c → c.failure = none → c.HasEnd → Decided L N c (x.run c).2

section Rules

variable {pre pre' : Cursor → Prop} {x y : Reader α} {f : α → Reader β} {L M N : Kinds}
  {k : Token.Kind} {P : Token.Kind → Prop}

/-- The first token that a reading has looked at is the current one. -/
theorem eq_current_of_starts {c : Cursor} {u : List Token} {t : Token} {v : List Token}
    (hc : c.rest = u ++ t :: v) {r : List Token.Kind}
    (h : kindsOf u ++ [t.kind] <+: k :: r) : k = c.current.kind := by
  cases u with
  | nil =>
    have hcurrent : c.current = t := by simp [Cursor.current, hc]
    rw [hcurrent]
    exact ((List.cons_prefix_cons.mp h).1).symm
  | cons s u =>
    have hcurrent : c.current = s := by simp [Cursor.current, hc]
    rw [hcurrent]
    exact ((List.cons_prefix_cons.mp h).1).symm

theorem Decides.mono (hx : Decides pre x L N) (hpre : ∀ c, pre' c → pre c) :
    Decides pre' x L N :=
  ⟨hx.nonempty, hx.failed, fun c hc => hx.decided c (hpre c hc)⟩

theorem Decides.here (hx : Decides anywhere x L N) : Decides pre x L N := hx.mono fun _ _ => trivial

/-- Wherever it matters, another reader does the same. -/
theorem Decides.congr (hx : Decides pre x L N)
    (hfailed : ∀ c, c.failure ≠ none → (y.run c).2.failure = c.failure)
    (hrun : ∀ c, pre c → c.failure = none → c.HasEnd → y.run c = x.run c) : Decides pre y L N := by
  refine ⟨hx.nonempty, hfailed, fun c hc hf he => ?_⟩
  rw [hrun c hc hf he]
  exact hx.decided c hc hf he

theorem decides_pure (a : α) : Decides pre (pure a) 1 N := by
  refine ⟨⟨[], Language.nil_mem_one⟩, fun _ _ => rfl, fun c _ hf he => ?_⟩
  obtain ⟨t, ts, hr, -⟩ := he.rest_eq_cons
  exact .reads [] t ts hr hr hf he Language.nil_mem_one fun w hw _ _ _ => hw

theorem decides_done (a : α) : Decides pre (pure a) (seq []) N := decides_pure a

theorem starts_of_cons {t t' : Token} {ts u v : List Token} (h : t :: ts = u ++ t' :: v) :
    [t.kind] <+: kindsOf u ++ [t'.kind] := by
  cases u with
  | nil =>
    cases h
    exact List.prefix_rfl
  | cons s u =>
    cases h
    exact ⟨kindsOf u ++ [t'.kind], rfl⟩

/-- A reading that goes on after tokens were passed, if the words of `S` that start with them and
the next token go on with a word of `M`. -/
theorem Decided.after {S : Kinds} {c d e : Cursor} {u v : List Token} {t : Token}
    (h : Decided M N d e) (passed : c.rest = u ++ t :: v) (rest : d.rest = t :: v)
    (hM : ∃ w, w ∈ M) (hmem : ∀ w ∈ M, kindsOf u ++ w ∈ S)
    (hsplit : ∀ w ∈ S, ∀ z ∈ N, kindsOf u ++ [t.kind] <+: w ++ z →
      ∃ w' ∈ M, w = kindsOf u ++ w') : Decided S N c e := by
  have hpassed {u' v' : List Token} {t' : Token} (h : d.rest = u' ++ t' :: v') :
      c.rest = (u ++ u') ++ t' :: v' := by
    rw [List.append_assoc, ← h, rest, passed]
  have hrest {u' v' : List Token} {t' : Token} (h : d.rest = u' ++ t' :: v')
      {w z : List Token.Kind} (hw : w ∈ S) (hz : z ∈ N)
      (hstarts : kindsOf (u ++ u') ++ [t'.kind] <+: w ++ z) :
      ∃ w' ∈ M, w = kindsOf u ++ w' ∧ kindsOf u' ++ [t'.kind] <+: w' ++ z := by
    rw [kindsOf_append, List.append_assoc] at hstarts
    have hnext := (List.prefix_append_right_inj (kindsOf u)).mpr (starts_of_cons (rest ▸ h))
    obtain ⟨w', hw', rfl⟩ := hsplit w hw z hz (hnext.trans hstarts)
    rw [List.append_assoc] at hstarts
    exact ⟨w', hw', rfl, (List.prefix_append_right_inj _).mp hstarts⟩
  cases h with
  | deep p span nesting failed => exact .deep p span nesting failed
  | refuses u' t' v' passed' expected failed viable none =>
    refine .refuses (u ++ u') t' v' (hpassed passed') expected failed ?_ ?_
    · intro _
      rw [kindsOf_append]
      by_cases hu' : u' = []
      · obtain ⟨w, hw⟩ := hM
        exact ⟨w, by simpa [hu', kindsOf] using hmem w hw⟩
      · obtain ⟨w, hw⟩ := viable hu'
        exact ⟨w, by rw [List.append_assoc]; exact hmem _ hw⟩
    · intro w hw z hz hstarts
      obtain ⟨w', hw', -, hstarts'⟩ := hrest passed' hw hz hstarts
      exact none w' hw' z hz hstarts'
  | reads u' t' v' passed' rest' unfailed' ahead' mem' only' =>
    refine .reads (u ++ u') t' v' (hpassed passed') rest' unfailed' ahead' ?_ ?_
    · rw [kindsOf_append]
      exact hmem _ mem'
    · intro w hw z hz hstarts
      obtain ⟨w', hw', rfl, hstarts'⟩ := hrest passed' hw hz hstarts
      rw [only' w' hw' z hz hstarts', kindsOf_append]

/-- A reading that goes on from another one in front of the language of the first. -/
theorem Decided.bind {c d e : Cursor} (hx : Decided L (M * N) c d) (hM : ∃ w, w ∈ M)
    (hstays : d.failure ≠ none → e.failure = d.failure)
    (hf : d.failure = none → d.HasEnd → (∃ u, c.rest = u ++ d.rest ∧ kindsOf u ∈ L) →
      Decided M N d e) : Decided (L * M) N c e := by
  cases hx with
  | deep p span nesting failed =>
    exact .deep p span nesting ((hstays (by simp [failed])).trans failed)
  | refuses u t v passed expected failed viable none =>
    refine .refuses u t v passed expected ((hstays (by simp [failed])).trans failed) ?_ ?_
    · intro hu
      obtain ⟨w, hw⟩ := viable hu
      obtain ⟨w', hw'⟩ := hM
      exact ⟨w ++ w', by rw [← List.append_assoc]; exact Language.append_mem_mul hw hw'⟩
    · intro w hw z hz hstarts
      obtain ⟨w₁, hw₁, w₂, hw₂, rfl⟩ := Language.mem_mul.mp hw
      rw [List.append_assoc] at hstarts
      exact none w₁ hw₁ (w₂ ++ z) (Language.append_mem_mul hw₂ hz) hstarts
  | reads u t v passed rest unfailed ahead mem only =>
    have hmore := hf unfailed ahead ⟨u, by rw [passed, rest], mem⟩
    refine hmore.after passed rest hM (fun w hw => Language.append_mem_mul mem hw) ?_
    intro w hw z hz hstarts
    obtain ⟨w₁, hw₁, w₂, hw₂, rfl⟩ := Language.mem_mul.mp hw
    rw [List.append_assoc] at hstarts
    have hfirst := only w₁ hw₁ (w₂ ++ z) (Language.append_mem_mul hw₂ hz) hstarts
    exact ⟨w₂, hw₂, by rw [hfirst]⟩

theorem Decides.bind_within (hx : Decides pre x L (M * N)) (hf : ∀ a, Decides pre' (f a) M N)
    (hpre : ∀ c d u, pre c → c.rest = u ++ d.rest → kindsOf u ∈ L → pre' d) :
    Decides pre (x >>= f) (L * M) N := by
  have hM : ∃ w, w ∈ M := (hf (x.run ⟨[], {}, [], none, []⟩).1).nonempty
  refine ⟨?_, ?_, ?_⟩
  · obtain ⟨w, hw⟩ := hx.nonempty
    obtain ⟨w', hw'⟩ := hM
    exact ⟨w ++ w', Language.append_mem_mul hw hw'⟩
  · intro c hc
    have hmid := hx.failed c hc
    exact ((hf (x.run c).1).failed (x.run c).2 (by rwa [hmid])).trans hmid
  · intro c hc hunfailed hend
    refine (hx.decided c hc hunfailed hend).bind hM (fun h => (hf _).failed _ h) ?_
    rintro hok hahead ⟨u, hu, hmem⟩
    exact (hf (x.run c).1).decided _ (hpre c _ u hc hu hmem) hok hahead

theorem Decides.bind (hx : Decides pre x L (M * N)) (hf : ∀ a, Decides anywhere (f a) M N) :
    Decides pre (x >>= f) (L * M) N := hx.bind_within hf fun _ _ _ _ _ _ => trivial

/-- The first part of a sequence, and then the others. -/
theorem Decides.andThen {Ls : List Kinds} (hx : Decides pre x L (seq Ls * N))
    (hf : ∀ a, Decides anywhere (f a) (seq Ls) N) : Decides pre (x >>= f) (seq (L :: Ls)) N := by
  rw [seq_cons]
  exact hx.bind hf

theorem Decides.map {g : α → β} (hx : Decides pre x L N) : Decides pre (g <$> x) L N :=
  ⟨hx.nonempty, hx.failed, hx.decided⟩

theorem decides_get {f : Cursor → Reader β} (h : ∀ c, Decides (fun d => pre d ∧ d = c) (f c) L N) :
    Decides pre (get >>= f) L N :=
  ⟨(h ⟨[], {}, [], none, []⟩).nonempty, fun c hc => (h c).failed c hc,
    fun c hc => (h c).decided c ⟨hc, rfl⟩⟩

theorem decides_peek {f : Token → Reader β} (h : ∀ t, Decides pre (f t) L N) :
    Decides pre (peek >>= f) L N :=
  decides_get fun c => (h c.current).mono fun _ hd => hd.1

theorem decides_takeDoc {f : Option Text → Reader β} (t : Token)
    (h : ∀ doc, Decides anywhere (f doc) L N) : Decides pre (takeDoc t >>= f) L N := by
  have hrun : ∀ c, ∃ doc used, (takeDoc t >>= f).run c = (f doc).run { c with used := used } := by
    intro c
    obtain ⟨doc, used, hdoc⟩ := takeDoc_run t c
    refine ⟨doc, used, ?_⟩
    rw [StateT.run_bind, hdoc]
    rfl
  refine ⟨(h none).nonempty, ?_, ?_⟩
  · intro c hc
    obtain ⟨doc, used, hdoc⟩ := hrun c
    rw [hdoc]
    exact (h doc).failed _ hc
  · intro c _ hunfailed hend
    obtain ⟨doc, used, hdoc⟩ := hrun c
    rw [hdoc]
    cases (h doc).decided { c with used := used } trivial hunfailed hend with
    | reads u t v passed rest unfailed ahead mem only =>
      exact .reads u t v passed rest unfailed ahead mem only
    | refuses u t v passed expected failed viable none =>
      exact .refuses u t v passed expected failed viable none
    | deep p span nesting failed => exact .deep p span nesting failed

section Tokens

theorem one_eq : one k = oneOf (· = k) := by
  ext w
  constructor
  · rintro rfl
    exact ⟨k, rfl, rfl⟩
  · rintro ⟨_, rfl, rfl⟩
    rfl

theorem hasEnd_next {c : Cursor} (h : c.HasEnd) : c.next.HasEnd := by
  by_cases hk : c.current.kind = .endOfFile
  · rwa [Cursor.next, if_pos (by simpa [Cursor.atEnd] using hk)]
  · obtain ⟨t, ht, htk⟩ := h
    rw [(rest_eq_cons hk).1] at ht
    rcases List.mem_cons.mp ht with rfl | ht
    · exact absurd htk hk
    · exact ⟨t, ht, htk⟩

theorem failure_next (c : Cursor) : c.next.failure = c.failure := by
  unfold Cursor.next
  split <;> rfl

theorem failure_fail {c : Cursor} (h : c.failure ≠ none) (p : SyntaxProblem) :
    (c.fail p).failure = c.failure := by
  rw [Cursor.fail, if_pos (Option.isSome_iff_ne_none.mpr h)]

theorem decided_next {c : Cursor} (hP : ¬P .endOfFile) (hk : P c.current.kind)
    (hunfailed : c.failure = none) (hend : c.HasEnd) : Decided (oneOf P) N c c.next := by
  have hne : c.current.kind ≠ .endOfFile := fun h => hP (h ▸ hk)
  have hnext := hasEnd_next hend
  obtain ⟨t, ts, hr, -⟩ := hnext.rest_eq_cons
  refine .reads [c.current] t ts ?_ hr ((failure_next c).trans hunfailed) hnext ⟨_, hk, rfl⟩ ?_
  · rw [(rest_eq_cons hne).1, hr]
    rfl
  · rintro w ⟨k, -, rfl⟩ z - hstarts
    have hkind := (List.cons_prefix_cons.mp hstarts).1
    rw [← hkind]
    rfl

theorem decided_fail {c : Cursor} {expected : List Token.Kind}
    (hnone : ∀ w ∈ L, ∀ z ∈ N, ¬[c.current.kind] <+: w ++ z) (hunfailed : c.failure = none)
    (hend : c.HasEnd) : Decided L N c (c.fail (.mismatch c.current expected)) := by
  obtain ⟨t, ts, hr, hcurrent⟩ := hend.rest_eq_cons
  rw [hcurrent] at hnone ⊢
  refine .refuses [] t ts hr expected ?_ (fun h => absurd rfl h) hnone
  rw [Cursor.fail, if_neg (by simp [hunfailed]), hcurrent]

theorem not_starts_of_leads (hL : Leads P L) {w z : List Token.Kind} (hw : w ∈ L)
    (hk : ¬P k) : ¬[k] <+: w ++ z := by
  intro hstarts
  obtain ⟨k', v, rfl, hk'⟩ := hL w hw
  exact hk ((List.cons_prefix_cons.mp hstarts).1 ▸ hk')

/-- A reader that passes one token of some kinds, and fails at every other. -/
theorem decides_token (expected : List Token.Kind) (hsome : ∃ k, P k) (hP : ¬P .endOfFile)
    (hfailed : ∀ c, c.failure ≠ none → (x.run c).2.failure = c.failure)
    (hnext : ∀ c, pre c → c.failure = none → P c.current.kind → (x.run c).2 = c.next)
    (hfail : ∀ c, pre c → c.failure = none → ¬P c.current.kind →
      (x.run c).2 = c.fail (.mismatch c.current expected)) :
    Decides pre x (oneOf P) N := by
  obtain ⟨k, hk⟩ := hsome
  refine ⟨⟨[k], k, hk, rfl⟩, hfailed, fun c hc hunfailed hend => ?_⟩
  by_cases hcurrent : P c.current.kind
  · rw [hnext c hc hunfailed hcurrent]
    exact decided_next hP hcurrent hunfailed hend
  · rw [hfail c hc hunfailed hcurrent]
    refine decided_fail (fun w hw z _ => ?_) hunfailed hend
    exact not_starts_of_leads (leads_oneOf fun _ h => h) hw hcurrent

theorem isAt_of_failure {c : Cursor} (h : c.failure ≠ none) (k : Token.Kind) :
    c.isAt k = false := by
  simp [Cursor.isAt, h]

theorem isAt_eq {c : Cursor} (h : c.failure = none) (k : Token.Kind) :
    c.isAt k = decide (c.current.kind = k) := by
  rw [Cursor.isAt, h]
  by_cases hk : c.current.kind = k <;> simp [hk]

theorem decides_expect (hk : k ≠ .endOfFile) : Decides pre (expect k) (one k) N := by
  rw [one_eq]
  refine decides_token [k] ⟨k, rfl⟩ hk.symm ?_ ?_ ?_
  · intro c hc
    rw [expect_run_of_not_isAt (isAt_of_failure hc k)]
    exact failure_fail hc _
  · intro c _ hunfailed hcurrent
    rw [expect_run_of_isAt (by simp [isAt_eq hunfailed, hcurrent])]
  · intro c _ hunfailed hcurrent
    rw [expect_run_of_not_isAt (by simpa [isAt_eq hunfailed] using hcurrent)]

theorem decides_mark (m : Mark) : Decides pre (expectMark m) (mark m) N := decides_expect (by simp)

theorem decides_identifier : Decides pre identifier name N := by
  refine decides_token [.identifier] ⟨.identifier, rfl⟩ (by decide) ?_ ?_ ?_
  · intro c hc
    rw [identifier_run_of_not_isAtName (by simp [Cursor.isAtName, hc])]
    exact failure_fail hc _
  · intro c _ hunfailed hname
    rw [identifier_run_of_isAtName (by simp [Cursor.isAtName, hunfailed, hname])]
  · intro c _ hunfailed hname
    rw [identifier_run_of_not_isAtName (by simpa [Cursor.isAtName, hunfailed] using hname)]

/-- A token is passed that is known to be of some kinds. -/
theorem decides_advance (hP : ¬P .endOfFile) (hsome : ∃ k, P k)
    (hpre : ∀ c, pre c → P c.current.kind) : Decides pre advance (oneOf P) N :=
  decides_token [] hsome hP (fun c _ => failure_next c) (fun _ _ _ _ => rfl)
    fun c hc _ h => absurd (hpre c hc) h

theorem decides_passing (hk : k ≠ .endOfFile) (hpre : ∀ c, pre c → c.current.kind = k) :
    Decides pre advance (one k) N := by
  rw [one_eq]
  exact decides_advance (P := (· = k)) hk.symm ⟨k, rfl⟩ hpre

/-- A name is passed that is known to be of some kinds. -/
theorem decides_identifier_of (hsome : ∃ k, P k) (hP : ∀ k, P k → k.isName = true)
    (hpre : ∀ c, pre c → P c.current.kind) : Decides pre identifier (oneOf P) N := by
  have hname : Decides pre identifier name N := decides_identifier
  refine decides_token [] hsome (fun h => by cases hP _ h) hname.failed ?_
    fun c hc _ h => absurd (hpre c hc) h
  intro c _ hunfailed hk
  rw [identifier_run_of_isAtName (by simp [Cursor.isAtName, hunfailed, hP _ hk])]

end Tokens

section Choices

/-- Words may be added that do not start with the tokens that a reading has looked at. -/
theorem Decided.mono_of_ahead {c d : Cursor} (hx : Decided L N c d) (hLM : L ≤ M)
    (hM : ∀ u t v, c.rest = u ++ t :: v →
      (∀ w ∈ L, ∀ z ∈ N, kindsOf u ++ [t.kind] <+: w ++ z → w = kindsOf u) →
      ∀ w ∈ M, w ∉ L → ∀ z ∈ N, ¬kindsOf u ++ [t.kind] <+: w ++ z) : Decided M N c d := by
  cases hx with
  | reads u t v passed rest unfailed ahead mem only =>
    refine .reads u t v passed rest unfailed ahead (hLM mem) fun w hw z hz hstarts => ?_
    by_cases hL : w ∈ L
    · exact only w hL z hz hstarts
    · exact absurd hstarts (hM u t v passed only w hw hL z hz)
  | refuses u t v passed expected failed viable none =>
    refine .refuses u t v passed expected failed (fun hu => ?_) fun w hw z hz hstarts => ?_
    · obtain ⟨w, hw⟩ := viable hu
      exact ⟨w, hLM hw⟩
    · have hL : w ∉ L := fun hL => none w hL z hz hstarts
      exact hM u t v passed (fun w hw z hz h => absurd h (none w hw z hz)) w hw hL z hz hstarts
  | deep p span nesting failed => exact .deep p span nesting failed

theorem Decided.mono_left {c d : Cursor} (hx : Decided L N c d) (hLM : L ≤ M)
    (hM : ∀ w ∈ M, w ∉ L → ∀ z ∈ N, ∀ k v, w ++ z = k :: v → k ≠ c.current.kind) :
    Decided M N c d := by
  refine hx.mono_of_ahead hLM fun u t v passed _ w hw hL z hz hstarts => ?_
  cases hwz : w ++ z with
  | nil => simp [hwz] at hstarts
  | cons k r =>
    rw [hwz] at hstarts
    exact hM w hw hL z hz k r hwz (eq_current_of_starts passed hstarts)

/-- The current token tells which of two languages is read. -/
theorem Decides.split (hx : Decides (fun c => pre c ∧ P c.current.kind) x L N)
    (hy : Decides (fun c => pre c ∧ ¬P c.current.kind) x M N) (hL : Leads P (L * N))
    (hM : Leads (fun k => ¬P k) (M * N)) : Decides pre x (L + M) N := by
  refine ⟨?_, hx.failed, fun c hc hunfailed hend => ?_⟩
  · obtain ⟨w, hw⟩ := hx.nonempty
    exact ⟨w, .inl hw⟩
  · by_cases hk : P c.current.kind
    · refine (hx.decided c ⟨hc, hk⟩ hunfailed hend).mono_left (fun w hw => .inl hw) ?_
      rintro w (hw | hw) hnot z hz k v hwz rfl
      · exact hnot hw
      · obtain ⟨k', v', hwz', hk'⟩ := hM (w ++ z) (Language.append_mem_mul hw hz)
        cases hwz.symm.trans hwz'
        exact hk' hk
    · refine (hy.decided c ⟨hc, hk⟩ hunfailed hend).mono_left (fun w hw => .inr hw) ?_
      rintro w (hw | hw) hnot z hz k v hwz rfl
      · obtain ⟨k', v', hwz', hk'⟩ := hL (w ++ z) (Language.append_mem_mul hw hz)
        cases hwz.symm.trans hwz'
        exact hk hk'
      · exact hnot hw

/-- The current token tells that a word is none of the other language. -/
theorem Decides.widen (hx : Decides pre x L N) (hpre : ∀ c, pre c → P c.current.kind)
    (hM : Leads (fun k => ¬P k) M) : Decides pre x (L + M) N := by
  refine ⟨?_, hx.failed, fun c hc hunfailed hend => ?_⟩
  · obtain ⟨w, hw⟩ := hx.nonempty
    exact ⟨w, .inl hw⟩
  · refine (hx.decided c hc hunfailed hend).mono_left (fun w hw => .inl hw) ?_
    rintro w (hw | hw) hnot z _ k v hwz rfl
    · exact hnot hw
    · obtain ⟨k', v', rfl, hk'⟩ := hM w hw
      cases hwz
      exact hk' (hpre c hc)

/-- No word starts with the current token. -/
theorem decides_refuse {b : β} {expected : List Token.Kind} (hne : ∃ w, w ∈ L) (hL : Leads P L)
    (hpre : ∀ c, pre c → c.failure = none → ¬P c.current.kind) :
    Decides pre (failExpecting expected >>= fun _ => pure b) L N := by
  refine ⟨hne, fun c hc => failure_fail hc _, fun c hc hunfailed hend => ?_⟩
  have hnot : ¬P c.current.kind := hpre c hc hunfailed
  exact decided_fail (fun w hw z _ => not_starts_of_leads hL hw hnot) hunfailed hend

/-- A reader that fails at every token with which no word starts. -/
theorem Decides.orElse (expected : List Token.Kind)
    (hx : Decides (fun c => pre c ∧ P c.current.kind) x L N) (hL : Leads P L)
    (hfail : ∀ c, pre c → c.failure = none → ¬P c.current.kind →
      (x.run c).2 = c.fail (.mismatch c.current expected)) : Decides pre x L N := by
  refine ⟨hx.nonempty, hx.failed, fun c hc hunfailed hend => ?_⟩
  by_cases hk : P c.current.kind
  · exact hx.decided c ⟨hc, hk⟩ hunfailed hend
  · rw [hfail c hc hunfailed hk]
    exact decided_fail (fun w hw z _ => not_starts_of_leads hL hw hk) hunfailed hend

/-- A reader that is never used at a token of the kinds. -/
theorem Decides.restrict {kinds : List Token.Kind} (hx : Decides pre x L N) (hL : Leads P L)
    (hne : ∃ w, w ∈ apart kinds L) (hpre : ∀ c, pre c → c.current.kind ∉ kinds) :
    Decides pre x (apart kinds L) N := by
  have happart {c : Cursor} (hc : pre c) {u v : List Token} {t : Token}
      (passed : c.rest = u ++ t :: v) (hu : u ≠ []) {w : List Token.Kind}
      (hw : kindsOf u ++ w ∈ L) : kindsOf u ++ w ∈ apart kinds L := by
    refine ⟨hw, fun k hk hhead => hpre c hc ?_⟩
    cases u with
    | nil => exact absurd rfl hu
    | cons s u =>
      have hcurrent : c.current = s := by simp [Cursor.current, passed]
      cases hhead
      rwa [hcurrent]
  refine ⟨hne, hx.failed, fun c hc hunfailed hend => ?_⟩
  cases hx.decided c hc hunfailed hend with
  | reads u t v passed rest unfailed ahead mem only =>
    have hu : u ≠ [] := by
      rintro rfl
      obtain ⟨k, w, hw, -⟩ := hL _ mem
      cases hw
    refine .reads u t v passed rest unfailed ahead ?_ fun w hw => only w hw.1
    simpa using happart hc passed hu (w := []) (by simpa using mem)
  | refuses u t v passed expected failed viable none =>
    refine .refuses u t v passed expected failed (fun hu => ?_) fun w hw => none w hw.1
    obtain ⟨w, hw⟩ := viable hu
    exact ⟨w, happart hc passed hu hw⟩
  | deep p span nesting failed => exact .deep p span nesting failed

theorem decides_isAt {x y : Reader β} (hx : Decides (fun c => pre c ∧ c.current.kind = k) x L N)
    (hy : Decides (fun c => pre c ∧ c.current.kind ≠ k) y M N) (hL : Leads (· = k) (L * N))
    (hM : Leads (· ≠ k) (M * N)) :
    Decides pre (isAt k >>= fun b => if b = true then x else y) (L + M) N := by
  have hrun : ∀ c, (isAt k >>= fun b => if b = true then x else y).run c =
      (if c.isAt k = true then x else y).run c := fun _ => rfl
  have hfailed : ∀ c, c.failure ≠ none →
      ((isAt k >>= fun b => if b = true then x else y).run c).2.failure = c.failure := by
    intro c hc
    rw [hrun, if_neg (by simp [isAt_of_failure hc])]
    exact hy.failed c hc
  refine Decides.split (P := (· = k)) (hx.congr hfailed ?_) (hy.congr hfailed ?_) hL hM
  · rintro c ⟨-, hk⟩ hunfailed -
    rw [hrun, if_pos (by simp [isAt_eq hunfailed, hk])]
  · rintro c ⟨-, hk⟩ hunfailed -
    rw [hrun, if_neg (by simpa [isAt_eq hunfailed] using hk)]

theorem failed_accept {x y : Reader β}
    (hy : ∀ c, c.failure ≠ none → (y.run c).2.failure = c.failure) (c : Cursor)
    (hc : c.failure ≠ none) :
    ((accept k >>= fun b => if b = true then x else y).run c).2.failure = c.failure := by
  rw [StateT.run_bind, accept_run_of_not_isAt (isAt_of_failure hc k)]
  exact hy c hc

/-- One token is passed. -/
theorem decides_accepted {x y : Reader β} (hk : k ≠ .endOfFile) (hx : Decides pre' x L N)
    (hpre : ∀ c d t, pre c → c.rest = t :: d.rest → pre' d)
    (hy : ∀ c, c.failure ≠ none → (y.run c).2.failure = c.failure) :
    Decides (fun c => pre c ∧ c.current.kind = k)
      (accept k >>= fun b => if b = true then x else y) (one k * L) N := by
  have hadvance : Decides (fun c => pre c ∧ c.current.kind = k) (advance >>= fun _ => x)
      (one k * L) N := by
    rw [one_eq]
    have hone : Decides (fun c => pre c ∧ c.current.kind = k) advance (oneOf (· = k)) (L * N) :=
      decides_advance hk.symm ⟨k, rfl⟩ fun c hc => hc.2
    refine hone.bind_within (fun _ => hx) ?_
    rintro c d u ⟨hc, -⟩ hu ⟨_, -, hmem⟩
    obtain ⟨t, rfl, -⟩ := List.map_eq_singleton_iff.mp hmem
    exact hpre c d t hc hu
  refine hadvance.congr (failed_accept hy) ?_
  rintro c ⟨-, hcurrent⟩ hunfailed -
  rw [StateT.run_bind, accept_run_of_isAt (by simp [isAt_eq hunfailed, hcurrent])]
  rfl

theorem decides_accept_within {x y : Reader β} (hk : k ≠ .endOfFile) (hx : Decides pre' x L N)
    (hpre : ∀ c d t, pre c → c.rest = t :: d.rest → pre' d)
    (hy : Decides (fun c => pre c ∧ c.current.kind ≠ k) y M N) (hM : Leads (· ≠ k) (M * N)) :
    Decides pre (accept k >>= fun b => if b = true then x else y) (one k * L + M) N := by
  have hL : Leads (· = k) (one k * L * N) := ((leads_one (P := (· = k)) rfl).mul L).mul N
  refine Decides.split (P := (· = k)) (decides_accepted hk hx hpre hy.failed)
    (hy.congr (failed_accept hy.failed) ?_) hL hM
  rintro c ⟨-, hcurrent⟩ hunfailed -
  rw [StateT.run_bind, accept_run_of_not_isAt (by simpa [isAt_eq hunfailed] using hcurrent)]
  rfl

theorem decides_accept {x y : Reader β} (hk : k ≠ .endOfFile) (hx : Decides anywhere x L N)
    (hy : Decides (fun c => pre c ∧ c.current.kind ≠ k) y M N) (hM : Leads (· ≠ k) (M * N)) :
    Decides pre (accept k >>= fun b => if b = true then x else y) (one k * L + M) N :=
  decides_accept_within hk hx (fun _ _ _ _ _ => trivial) hy hM

/-- A word that starts with the token, or one of the others. -/
theorem decides_either {x y : Reader β} (hk : k ≠ .endOfFile) (hM : Leads (· ≠ k) M)
    (hx : Decides anywhere x L N) (hy : Decides (fun c => pre c ∧ c.current.kind ≠ k) y M N) :
    Decides pre (accept k >>= fun b => if b = true then x else y) (one k * L + M) N :=
  decides_accept hk hx hy (hM.mul N)

/-- The last of the words that can be read. -/
theorem decides_accept_or_fail {x : Reader β} {b : β} {expected : List Token.Kind}
    (hk : k ≠ .endOfFile) (hx : Decides anywhere x L N) :
    Decides pre
      (accept k >>= fun b' => if b' = true then x else failExpecting expected >>= fun _ => pure b)
      (one k * L) N := by
  have hfail (c : Cursor) (hc : c.failure ≠ none) :
      ((failExpecting expected >>= fun _ => pure b).run c).2.failure = c.failure :=
    failure_fail hc _
  refine Decides.orElse (P := (· = k)) expected
    (decides_accepted hk hx (fun _ _ _ _ _ => trivial) hfail)
    ((leads_one (P := (· = k)) rfl).mul L) ?_
  intro c _ hunfailed hcurrent
  rw [StateT.run_bind, accept_run_of_not_isAt (by simpa [isAt_eq hunfailed] using hcurrent)]
  rfl

theorem accept_bind_eq (f : Bool → Reader β) :
    (accept k >>= f) = accept k >>= fun b => if b = true then f true else f false := by
  refine congrArg _ (funext fun b => ?_)
  cases b <;> rfl

theorem seq_append (Ls Ms : List Kinds) : seq (Ls ++ Ms) = seq Ls * seq Ms := List.prod_append

/-- A part that may be left out, up to what follows it. -/
theorem decides_opt (Ls Ms : List Kinds) {x y : Reader β} (hk : k ≠ .endOfFile)
    (hx : Decides anywhere x (seq (Ls ++ Ms)) N)
    (hy : Decides (fun c => pre c ∧ c.current.kind ≠ k) y (seq Ms) N)
    (hMs : Leads (· ≠ k) (seq Ms * N)) :
    Decides pre (accept k >>= fun b => if b = true then x else y)
      (seq (opt (seq (one k :: Ls)) :: Ms)) N := by
  have hlanguage : seq (opt (seq (one k :: Ls)) :: Ms) = one k * seq (Ls ++ Ms) + seq Ms := by
    rw [seq_cons, opt, seq_cons, seq_append, add_mul, one_mul, mul_assoc]
  rw [hlanguage]
  exact decides_accept hk hx hy hMs

theorem decides_mayAccept (hk : k ≠ .endOfFile) (hN : Leads (· ≠ k) N) :
    Decides pre (accept k) (opt (one k)) N := by
  have htest : Decides pre (accept k >>= fun b => if b = true then pure true else pure false)
      (one k * 1 + 1) N :=
    decides_accept hk (decides_pure true) (decides_pure false) (by rwa [one_mul])
  rw [mul_one] at htest
  refine htest.congr (fun c hc => ?_) fun c _ hunfailed _ => ?_
  · rw [accept_run_of_not_isAt (isAt_of_failure hc k)]
  · rw [StateT.run_bind]
    cases h : c.isAt k with
    | true => rw [accept_run_of_isAt h]; rfl
    | false => rw [accept_run_of_not_isAt h]; rfl

end Choices

section Loops

variable {part : Reader α} {test : Cursor → Bool} {close : Token.Kind}

theorem Decides.returning {g : α → β} (hx : Decides pre x L N) :
    Decides pre (x >>= fun a => pure (g a)) L N :=
  ⟨hx.nonempty, hx.failed, hx.decided⟩

theorem length_lt_of_leads (hL : Leads P L) {c d : Cursor} {u : List Token}
    (hu : c.rest = u ++ d.rest) (hmem : kindsOf u ∈ L) : d.rest.length < c.rest.length := by
  obtain ⟨k, v, hkv, -⟩ := hL _ hmem
  have hlength : u.length = v.length + 1 := by simpa [kindsOf] using congrArg List.length hkv
  simp only [hu, List.length_append]
  omega

/-- The number of steps is enough, since every part passes a token. -/
theorem decides_manyWithin (htest : ∀ c, c.failure = none → (test c = true ↔ P c.current.kind))
    (hstop : ∀ c, c.failure ≠ none → test c = false)
    (hpart : Decides (fun c => P c.current.kind) part L (L∗ * N)) (hL : Leads P L)
    (hN : Leads (fun k => ¬P k) N) (steps : Nat) :
    Decides (·.rest.length < steps) (manyWithin test part steps) L∗ N := by
  induction steps with
  | zero =>
    refine ⟨⟨[], Language.nil_mem_kstar L⟩, fun _ _ => rfl, fun c hc => ?_⟩
    exact absurd hc (Nat.not_lt_zero _)
  | succ steps ih =>
    have hrun (c : Cursor) : (manyWithin test part (steps + 1)).run c =
        (if test c = true then do
          let a ← part
          return a :: (← manyWithin test part steps)
        else return []).run c := rfl
    have hfailed (c : Cursor) (hc : c.failure ≠ none) :
        ((manyWithin test part (steps + 1)).run c).2.failure = c.failure := by
      rw [hrun, if_neg (by simp [hstop c hc])]
      rfl
    have hmore : Decides (fun c => c.rest.length < steps + 1 ∧ P c.current.kind)
        (part >>= fun a => manyWithin test part steps >>= fun as => pure (a :: as)) (L * L∗) N := by
      refine (hpart.mono fun _ hc => hc.2).bind_within (fun a => ih.returning) ?_
      rintro c d u ⟨hc, -⟩ hu hmem
      have hless := length_lt_of_leads hL hu hmem
      omega
    rw [← Language.one_add_self_mul_kstar_eq_kstar, add_comm (1 : Kinds)]
    refine Decides.split (P := P) (hmore.congr hfailed ?_)
      ((decides_pure []).congr hfailed ?_) ((hL.mul _).mul N) (by rwa [one_mul])
    · rintro c ⟨-, hk⟩ hunfailed -
      rw [hrun, if_pos ((htest c hunfailed).mpr hk)]
    · rintro c ⟨-, hk⟩ hunfailed -
      rw [hrun, if_neg fun h => hk ((htest c hunfailed).mp h)]

theorem decides_many (htest : ∀ c, c.failure = none → (test c = true ↔ P c.current.kind))
    (hstop : ∀ c, c.failure ≠ none → test c = false)
    (hpart : Decides (fun c => P c.current.kind) part L (L∗ * N)) (hL : Leads P L)
    (hN : Leads (fun k => ¬P k) N) : Decides pre (many test part) L∗ N := by
  refine decides_get fun c => ?_
  refine (decides_manyWithin htest hstop hpart hL hN _).mono ?_
  rintro _ ⟨-, rfl⟩
  exact Nat.lt_succ_self _

theorem kstar_comma_eq (L : Kinds) :
    (mark .comma * L)∗ = one (.mark .comma) * list L + 1 := by
  rw [list, ← mul_assoc, add_comm]
  exact (Language.one_add_self_mul_kstar_eq_kstar _).symm

/-- The number of steps is enough, since there is a comma between two parts. -/
theorem decides_separatedWithin (hpart : Decides anywhere part L ((mark .comma * L)∗ * N))
    (hN : Leads (· ≠ .mark .comma) N) (steps : Nat) :
    Decides (·.rest.length < steps) (separatedWithin part steps) (list L) N := by
  induction steps with
  | zero =>
    obtain ⟨w, hw⟩ := hpart.nonempty
    refine ⟨⟨w ++ [], Language.append_mem_mul hw (Language.nil_mem_kstar _)⟩, fun _ _ => rfl, ?_⟩
    exact fun c hc => absurd hc (Nat.not_lt_zero _)
  | succ steps ih =>
    rw [list]
    have hrest (a : α) : Decides (·.rest.length < steps + 1) (do
          if ← accept (.mark .comma) then return a :: (← separatedWithin part steps)
          else return [a])
        (mark .comma * L)∗ N := by
      rw [kstar_comma_eq]
      refine decides_accept_within (by simp) ih.returning (fun c d t hc hr => ?_) (decides_pure [a])
        (by rwa [one_mul])
      simp only [hr, List.length_cons] at hc
      omega
    refine hpart.here.bind_within hrest ?_
    intro c d u hc hu _
    simp only [hu, List.length_append] at hc
    omega

theorem decides_separated (hpart : Decides anywhere part L ((mark .comma * L)∗ * N))
    (hN : Leads (· ≠ .mark .comma) N) : Decides pre (separated part) (list L) N := by
  refine decides_get fun c => (decides_separatedWithin hpart hN _).mono ?_
  rintro _ ⟨-, rfl⟩
  exact Nat.lt_succ_self _

/-- A list that may be empty, in front of what closes it. -/
theorem decides_enclosed {close : Mark} {Ls : List Kinds} {g : List α → Reader β}
    (hclose : close ≠ .comma) (hL : Leads (· ≠ .mark close) L)
    (hpart : Decides anywhere part L ((mark .comma * L)∗ * (seq (mark close :: Ls) * N)))
    (hg : ∀ as, Decides anywhere (g as) (seq (mark close :: Ls)) N) :
    Decides pre (isAt (.mark close) >>= fun b =>
        if b = true then pure [] >>= g else separated part >>= g)
      (seq (opt (list L) :: mark close :: Ls)) N := by
  have hleads : Leads (· = .mark close) (seq (mark close :: Ls)) :=
    (leads_one (P := (· = .mark close)) rfl).seq Ls
  rw [seq_cons, opt, add_mul, one_mul, add_comm]
  refine decides_isAt ?_ ?_ (hleads.mul N) ((hL.list.mul _).mul N)
  · rw [pure_bind]
    exact (hg []).here
  · refine (decides_separated hpart ((hleads.mul N).mono ?_)).bind hg
    rintro _ rfl
    simpa using hclose

end Loops

end Rules

end Reader

end AvroIdl
