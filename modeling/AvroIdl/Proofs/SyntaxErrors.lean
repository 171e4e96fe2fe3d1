import AvroIdl.Proofs.EndOfTokens
import AvroIdl.Proofs.SpelledUnit

/-!
# Where a source goes wrong

The whole reader decides the language of the sources, although it may read the annotations at the
start twice: what they are is known before it is known what they belong to. So the one syntax error
of a token list is at the first token with which no source can go on.
-/
namespace AvroIdl

open TokenGrammar (Kinds Leads seq one mark word name opt seq_cons seq_nil leads_one mem_seq_cons
  nil_mem_opt)
open Computability

namespace TokenGrammar

/-- The words that a token with the property leads. -/
def ledBy (P : Token.Kind → Prop) : Kinds := {w | ∃ k v, w = k :: v ∧ P k}

theorem leads_ledBy (P : Token.Kind → Prop) : Leads P (ledBy P) := fun _ h => h

section Annotated

variable {P : Token.Kind → Prop} {L M : Kinds}

theorem Leads.le_annotated (hL : Leads P L) : L ≤ annotations * ledBy P := fun w hw =>
  Language.mem_mul.mpr ⟨[], Language.nil_mem_kstar _, w, hL w hw, rfl⟩

theorem annotations_mul_le (hL : Leads P L) : annotations * L ≤ annotations * ledBy P :=
  mul_le_mul_right hL _

theorem add_le_annotated (hL : L ≤ annotations * ledBy P) (hM : M ≤ annotations * ledBy P) :
    L + M ≤ annotations * ledBy P := fun w hw => hw.elim (@hL w) (@hM w)

/-- No token that leads what follows the annotations of a list of types is the one that leads a
protocol. -/
theorem schemas_mul_le : schemas * one .endOfFile ≤
    annotations * ledBy fun k => k ≠ .mark .at ∧ k ≠ .keyword .protocol := by
  have hend : one .endOfFile ≤
      annotations * ledBy fun k => k ≠ .mark .at ∧ k ≠ .keyword .protocol :=
    (leads_one (by simp)).le_annotated
  have hdeclarations : (declaration false)∗ * one .endOfFile ≤
      annotations * ledBy fun k => k ≠ .mark .at ∧ k ≠ .keyword .protocol := by
    rw [← Language.one_add_self_mul_kstar_eq_kstar, add_mul, one_mul, mul_assoc, declaration,
      add_mul]
    refine add_le_annotated hend (add_le_annotated ?_ ?_)
    · exact ((leads_one (by simp)).seq _ |>.mul _).le_annotated
    · refine (mul_le_mul_left (apart_le _ _) _).trans ?_
      rw [seq_cons, seq_cons, seq_nil, mul_one, mul_assoc]
      refine annotations_mul_le (Leads.mul ?_ _)
      refine Reader.leads_definition_of (by decide) ?_
      rintro w ⟨⟩
  change opt _ * (opt _ * ((declaration false)∗ * 1)) * _ ≤ _
  simp only [opt, add_mul, one_mul, mul_one, mul_assoc]
  refine add_le_annotated ?_ (add_le_annotated ?_ hdeclarations)
  · exact ((leads_one (by simp)).seq _ |>.mul _).le_annotated
  · exact ((leads_one (by simp)).seq _ |>.mul _).le_annotated

theorem leads_protocol : Leads (· = .keyword .protocol) protocol :=
  (leads_one (P := (· = .keyword .protocol)) rfl).seq _

theorem protocol_mul_le : seq [annotations, protocol] * M ≤
    annotations * ledBy fun k => k ≠ .mark .at := by
  rw [seq_cons, mul_assoc]
  exact annotations_mul_le (leads_protocol.mono (by simp) |>.seq [] |>.mul _)

theorem source_mul_le : source * one .endOfFile ≤ annotations * ledBy fun k => k ≠ .mark .at := by
  rw [source, add_mul]
  refine add_le_annotated protocol_mul_le (schemas_mul_le.trans (annotations_mul_le ?_))
  exact (leads_ledBy _).mono fun _ hk => hk.1

theorem mem_protocol : [.keyword .protocol, .identifier, .mark .leftBrace, .mark .rightBrace] ∈
    protocol := by
  refine mem_seq_cons (u := [.keyword .protocol]) rfl ?_
  refine mem_seq_cons (u := [.identifier]) ⟨_, rfl, rfl⟩ ?_
  refine mem_seq_cons (u := [.mark .leftBrace]) rfl ?_
  refine mem_seq_cons (u := []) (Language.nil_mem_kstar _) ?_
  exact mem_seq_cons (u := [.mark .rightBrace]) rfl rfl

theorem mem_source_of_protocol {a w : List Token.Kind} (ha : a ∈ annotations)
    (hw : w ∈ protocol) : a ++ w ∈ source := by
  refine .inl (mem_seq_cons ha ?_)
  rwa [seq_cons, seq_nil, mul_one]

/-- Annotations are the start of a list of types. -/
theorem exists_mem_schemas {a : List Token.Kind} (ha : a ∈ annotations) :
    ∃ w, a ++ w ∈ schemas := by
  obtain ⟨r, hr⟩ : ∃ r, r ∈ record := ⟨_, Reader.mem_record⟩
  have happart : a ++ r ∈ apart [.keyword .importFrom] (seq [annotations, definition false]) := by
    constructor
    · rw [seq_cons, seq_cons, seq_nil, mul_one]
      exact Language.append_mem_mul ha (.inl (.inl (.inl hr)))
    · rintro k hk hhead
      obtain rfl := List.mem_singleton.mp hk
      obtain ⟨k', v, hword, hk'⟩ := Reader.leads_annotations_mul Reader.leads_record _
        (Language.append_mem_mul ha hr)
      rw [hword] at hhead
      cases hhead
      simp at hk'
  have hdeclarations : a ++ r ∈ seq [(declaration false)∗] := by
    rw [seq_cons, seq_nil, mul_one]
    exact le_kstar (a := declaration false) (.inr happart)
  exact ⟨r, mem_seq_cons (u := []) (nil_mem_opt _)
    (mem_seq_cons (u := []) (nil_mem_opt _) hdeclarations)⟩

end Annotated

end TokenGrammar

namespace Reader

/-- Nothing may be left but the end of the file. -/
theorem decides_conclude {pre : Cursor → Prop} (b : SourceUnit.Body) :
    Decides pre (conclude b) 1 (one .endOfFile) := by
  refine decides_get fun c => ?_
  by_cases hstop : c.failure = none ∧ c.current.kind ≠ .endOfFile
  · rw [if_pos (by simpa [Cursor.atEnd] using hstop)]
    refine ⟨⟨[], Language.nil_mem_one⟩, fun d hd => failure_fail hd _, ?_⟩
    rintro d ⟨-, rfl⟩ hunfailed hend
    refine decided_fail ?_ hunfailed hend
    rintro w hw z rfl hstarts
    obtain rfl := Language.mem_one w |>.mp hw
    exact hstop.2 (List.cons_prefix_cons.mp hstarts).1
  · rw [if_neg (by simpa [Cursor.atEnd] using hstop)]
    exact decides_pure _

/-- Two readings of the same tokens have looked ahead to the same tokens as far as both went. -/
theorem starts_or_starts {ts u v u' v' : List Token} {t t' : Token} (h : ts = u ++ t :: v)
    (h' : ts = u' ++ t' :: v') :
    kindsOf u' ++ [t'.kind] <+: kindsOf u ∨ kindsOf u ++ [t.kind] <+: kindsOf u' ++ [t'.kind] := by
  have hp : kindsOf u ++ [t.kind] <+: kindsOf ts := ⟨kindsOf v, by simp [h, kindsOf]⟩
  have hp' : kindsOf u' ++ [t'.kind] <+: kindsOf ts := ⟨kindsOf v', by simp [h', kindsOf]⟩
  rcases List.prefix_or_prefix_of_prefix hp' hp with hle | hle
  · rcases List.prefix_concat_iff.mp hle with heq | hle
    · exact .inr (heq ▸ List.prefix_rfl)
    · exact .inl hle
  · exact .inr hle

/-- Once annotations are read, the words that go on like the tokens start with just these. -/
theorem ahead_of_annotated {P : Token.Kind → Prop} {M : Kinds} {u : List Token} {t : Token}
    {w z : List Token.Kind} (hM : Leads P M) (hP : ∀ k, P k → k ≠ .mark .at)
    (only : ∀ a ∈ TokenGrammar.annotations, ∀ z ∈ TokenGrammar.ledBy (· ≠ .mark .at),
      kindsOf u ++ [t.kind] <+: a ++ z → a = kindsOf u)
    (hw : w ∈ TokenGrammar.annotations * M) (hstarts : kindsOf u ++ [t.kind] <+: w ++ z) :
    P t.kind ∧ ∃ r ∈ M, w = kindsOf u ++ r := by
  obtain ⟨a, ha, r, hr, rfl⟩ := Language.mem_mul.mp hw
  obtain ⟨k, r', rfl, hk⟩ := hM r hr
  rw [List.append_assoc] at hstarts
  obtain rfl := only a ha _ ⟨k, r' ++ z, rfl, hP k hk⟩ hstarts
  have hnext := (List.prefix_append_right_inj _).mp hstarts
  rw [(List.cons_prefix_cons.mp hnext).1]
  exact ⟨hk, _, hr, rfl⟩

theorem decides_protocolUnit (first : Token) (as : List Annotation) : Decides anywhere (do
      let doc ← takeDoc first
      let body ← protocol ⟨as, doc, first⟩
      conclude body) TokenGrammar.protocol (one .endOfFile) := by
  refine decides_takeDoc first fun doc => ?_
  rw [← mul_one TokenGrammar.protocol]
  exact (decides_protocol _).bind fun b => decides_conclude b

theorem decides_schemasUnit :
    Decides anywhere (schemas >>= conclude) TokenGrammar.schemas (one .endOfFile) := by
  rw [← mul_one TokenGrammar.schemas]
  refine (decides_schemas ?_).bind fun b => decides_conclude b
  rw [one_mul]
  exact leads_one rfl

/-- A list of types is read from the start again. What was read ahead are annotations, which no
protocol follows. -/
theorem Decided.source_of_schemas {c d : Cursor} {u v : List Token} {t : Token}
    (h : Decided TokenGrammar.schemas (one .endOfFile) c d) (passed : c.rest = u ++ t :: v)
    (mem : kindsOf u ∈ TokenGrammar.annotations)
    (hprotocol : ∀ w ∈ seq [TokenGrammar.annotations, TokenGrammar.protocol], ∀ z,
      ¬kindsOf u ++ [t.kind] <+: w ++ z) :
    Decided TokenGrammar.source (one .endOfFile) c d := by
  refine h.mono_of_ahead (fun w hw => .inr hw) ?_
  rintro u' t' v' passed' only w (hw | hw) hnot z hz hstarts
  · rcases starts_or_starts passed passed' with hle | hle
    · -- The reading would have stopped within the annotations, but types can follow these.
      obtain ⟨w', hw'⟩ := TokenGrammar.exists_mem_schemas mem
      have hmore : kindsOf u' ++ [t'.kind] <+: (kindsOf u ++ w') ++ [.endOfFile] :=
        hle.trans ⟨w' ++ [.endOfFile], by rw [List.append_assoc]⟩
      have hlength := congrArg List.length (only _ hw' _ rfl hmore)
      have hlength' := hle.length_le
      simp only [List.length_append, List.length_singleton] at hlength hlength'
      omega
    · exact hprotocol w hw z (hle.trans hstarts)
  · exact hnot hw

theorem decides_sourceUnit : Decides anywhere sourceUnit TokenGrammar.source (one .endOfFile) := by
  have hannotations : Decides anywhere annotations TokenGrammar.annotations
      (TokenGrammar.ledBy (· ≠ .mark .at)) := decides_annotations (TokenGrammar.leads_ledBy _)
  refine ⟨?_, fun c hc => ?_, fun c _ hunfailed hend => ?_⟩
  · obtain ⟨w, hw⟩ := decides_schemasUnit.nonempty
    exact ⟨w, .inr hw⟩
  · have hsame := hannotations.failed c hc
    rw [sourceUnit_eq, again_run, if_pos (by simpa [hsame, Option.isSome_iff_ne_none] using hc)]
    exact hsame
  rw [sourceUnit_eq, again_run]
  cases hannotations.decided c trivial hunfailed hend with
  | deep p span nesting failed =>
    rw [if_pos (by simp [failed])]
    exact .deep p span nesting failed
  | refuses u t v passed expected failed viable none =>
    rw [if_pos (by simp [failed])]
    refine .refuses u t v passed expected failed (fun hu => ?_) fun w hw z hz => ?_
    · obtain ⟨w, hw⟩ := viable hu
      exact ⟨w ++ _, by
        rw [← List.append_assoc]
        exact TokenGrammar.mem_source_of_protocol hw TokenGrammar.mem_protocol⟩
    · obtain ⟨a, ha, r, hr, heq⟩ := Language.mem_mul.mp
        (TokenGrammar.source_mul_le (Language.append_mem_mul hw hz))
      rw [← heq]
      exact none a ha r hr
  | reads u t v passed rest unfailed ahead mem only =>
    have hprotocol {w z : List Token.Kind}
        (hw : w ∈ seq [TokenGrammar.annotations, TokenGrammar.protocol])
        (hstarts : kindsOf u ++ [t.kind] <+: w ++ z) :
        t.kind = .keyword .protocol ∧ ∃ r ∈ TokenGrammar.protocol, w = kindsOf u ++ r := by
      rw [seq_cons, seq_cons, seq_nil, mul_one] at hw
      exact ahead_of_annotated TokenGrammar.leads_protocol (by simp) only hw hstarts
    have hcurrent : (annotations.run c).2.current = t := by simp [Cursor.current, rest]
    rw [if_neg (by simp [unfailed]), isAt_eq unfailed, hcurrent]
    by_cases hkind : t.kind = .keyword .protocol
    · rw [if_pos (by simp [hkind])]
      refine ((decides_protocolUnit _ _).decided _ trivial unfailed ahead).after passed rest
        ⟨_, TokenGrammar.mem_protocol⟩ (fun w => TokenGrammar.mem_source_of_protocol mem) ?_
      rintro w (hw | hw) z hz hstarts
      · exact (hprotocol hw hstarts).2
      · have hschemas := TokenGrammar.schemas_mul_le (Language.append_mem_mul hw hz)
        rw [← List.append_nil (w ++ z)] at hstarts
        have hahead := ahead_of_annotated (TokenGrammar.leads_ledBy _) (fun _ hk => hk.1) only
          hschemas hstarts
        exact absurd hkind hahead.1.2
    · rw [if_neg (by simp [hkind])]
      refine (decides_schemasUnit.decided c trivial hunfailed hend).source_of_schemas passed mem ?_
      exact fun w hw z hstarts => hkind (hprotocol hw hstarts).1

end Reader

namespace TokenGrammar

variable {u : List Token} {k : Token}

/-- Tokens that can go on to a word of the sources can go on to a list that is accepted. -/
theorem exists_accepts (h : ∃ w, kindsOf u ++ w ∈ source) : ∃ more, Accepts (u ++ more) := by
  obtain ⟨w, hw⟩ := h
  have hkinds : (u ++ w.map fun k => ({ kind := k } : Token)).map (·.kind) = kindsOf u ++ w := by
    simp [kindsOf, Function.comp_def]
  refine ⟨(w.map fun k => { kind := k }) ++ [{ kind := .endOfFile }], _, _,
    (List.append_assoc _ _ _).symm, rfl, ?_⟩
  rwa [hkinds]

theorem not_accepts
    (h : ∀ w ∈ source, ∀ z ∈ one .endOfFile, ¬kindsOf u ++ [k.kind] <+: w ++ z)
    (more : List Token) : ¬Accepts (u ++ k :: more) := by
  rintro ⟨front, last, hts, hlast, hw⟩
  refine h _ hw [.endOfFile] rfl ⟨kindsOf more, ?_⟩
  have hkinds := congrArg kindsOf hts
  simpa [kindsOf, hlast] using hkinds

end TokenGrammar

namespace SourceUnit

variable {front : List Token} {last : Token} {docs : List DocComment}

/-- The only end of the file is the last token. -/
theorem eq_front_of_endOfFile {u v : List Token} {k : Token}
    (hfront : ∀ t ∈ front, t.kind ≠ .endOfFile) (hk : k.kind = .endOfFile)
    (h : front ++ [last] = u ++ k :: v) : u = front := by
  rcases v.eq_nil_or_concat with rfl | ⟨v, x, rfl⟩
  · exact (List.append_inj' h rfl).1.symm
  · rw [List.concat_eq_append, ← List.cons_append, ← List.append_assoc] at h
    obtain ⟨rfl, -⟩ := List.append_inj' h rfl
    exact absurd hk (hfront k (by simp))

/-- What the reading of a token list comes to. A list that is read without a problem is a source of
the grammar; a syntax error is at the first token with which none goes on. -/
theorem decided_ofTokens (docs : List DocComment) (hlast : last.kind = .endOfFile)
    (hfront : ∀ t ∈ front, t.kind ≠ .endOfFile) :
    match (ofTokens (front ++ [last]) docs).2 with
    | none => TokenGrammar.Accepts (front ++ [last])
    | some (p, span) => p.kind = .syntaxError →
      ∃ before k after, front ++ [last] = before ++ k :: after ∧ span = k.span ∧
        (∃ more, TokenGrammar.Accepts (before ++ more)) ∧
        ∀ more, ¬TokenGrammar.Accepts (before ++ k :: more) := by
  obtain ⟨c, hc, hunfailed, hrun⟩ := exists_run front last docs
  have hend : c.HasEnd := ⟨last, hc ▸ by simp, hlast⟩
  rw [hrun]
  cases Reader.decides_sourceUnit.decided c trivial hunfailed hend with
  | reads u k v passed rest unfailed ahead mem only =>
    have hk : k.kind = .endOfFile := by
      simpa [Cursor.atEnd, Cursor.current, rest] using Reader.atEnd_sourceUnit unfailed
    obtain rfl := eq_front_of_endOfFile hfront hk (hc.symm.trans passed)
    simp only [unfailed]
    exact ⟨u, last, rfl, hlast, mem⟩
  | refuses u k v passed expected failed viable none =>
    simp only [failed]
    intro _
    refine ⟨u, k, v, hc.symm.trans passed, rfl, TokenGrammar.exists_accepts ?_,
      TokenGrammar.not_accepts none⟩
    by_cases hu : u = []
    · simpa [hu, kindsOf] using Reader.decides_sourceUnit.nonempty
    · exact viable hu
  | deep p span nesting failed =>
    simp only [failed]
    exact fun h => absurd h nesting

/-- Whatever comes after the end of the file is not seen. A list that ends with it is a source of
the grammar and gives no diagnostic, or it gives just one. A syntax error is reported at a token
such that those before it can go on to a source, but none starts with it as well. -/
theorem at_most_one_error (file : Text) (docs : List DocComment) (front : List Token) (last : Token)
    (hlast : last.kind = .endOfFile) (hfront : ∀ t ∈ front, t.kind ≠ .endOfFile) :
    (∀ beyond, ofTokens (front ++ last :: beyond) docs = ofTokens (front ++ [last]) docs) ∧
      ((diagnostics file (ofTokens (front ++ [last]) docs).2 = [] ∧
          TokenGrammar.Accepts (front ++ [last])) ∨
        ∃ d, diagnostics file (ofTokens (front ++ [last]) docs).2 = [d] ∧
          (d.kind = .syntaxError → ∃ before k after, front ++ [last] = before ++ k :: after ∧
            d.span = some k.span ∧ (∃ more, TokenGrammar.Accepts (before ++ more)) ∧
            ∀ more, ¬TokenGrammar.Accepts (before ++ k :: more))) := by
  refine ⟨fun beyond => ofTokens_append hlast beyond docs, ?_⟩
  have hdecided := decided_ofTokens docs hlast hfront
  cases hfailure : (ofTokens (front ++ [last]) docs).2 with
  | none =>
    rw [hfailure] at hdecided
    exact .inl ⟨rfl, hdecided⟩
  | some failure =>
    obtain ⟨p, span⟩ := failure
    rw [hfailure] at hdecided
    refine .inr ⟨_, rfl, fun hkind => ?_⟩
    obtain ⟨before, k, after, hts, rfl, hviable, hdead⟩ := hdecided hkind
    exact ⟨before, k, after, hts, rfl, hviable, hdead⟩

/-- The start of a protocol. -/
def protocolStart : List Token := [{ kind := .keyword .protocol }, { kind := .identifier }]

def strayString : Token := { kind := .string, span := { start := { offset := 11 } } }

/-- The error is at the string, where a brace was expected. -/
theorem at_most_one_error_at_string :
    ((ofTokens (protocolStart ++ [strayString, { kind := .endOfFile }]) []).2.map (·.2) =
      some strayString.span) ∧
      (∃ more, TokenGrammar.Accepts (protocolStart ++ more)) ∧
      ∀ more, ¬TokenGrammar.Accepts (protocolStart ++ strayString :: more) := by
  obtain ⟨-, ⟨hnone, -⟩ | ⟨d, hd, hspan⟩⟩ :=
    at_most_one_error [] [] (protocolStart ++ [strayString]) { kind := .endOfFile } rfl (by decide)
  · cases hnone
  · obtain rfl := List.singleton_inj.mp hd
    obtain ⟨before, k, after, hts, hk, hmore, hdead⟩ := hspan rfl
    have hbefore : before = protocolStart ∧ k = strayString := by
      -- No other of the tokens stands where the string does.
      rcases before with _ | ⟨_, _ | ⟨_, _ | ⟨_, _ | ⟨_, before⟩⟩⟩⟩
      case cons.cons.nil =>
        cases hts
        exact ⟨rfl, rfl⟩
      case cons.cons.cons.cons => simp [protocolStart] at hts
      all_goals
        cases hts
        cases hk
    obtain ⟨rfl, rfl⟩ := hbefore
    exact ⟨rfl, hmore, hdead⟩

end SourceUnit

end AvroIdl
