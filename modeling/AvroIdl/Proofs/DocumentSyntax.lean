import AvroIdl.Proofs.Guarantee
import AvroIdl.Proofs.ImportGraph
import AvroIdl.Proofs.Members
import AvroIdl.Proofs.SpelledUnit

/-!
# Documents are no sources

A schema or protocol in its JSON form is an object, an array or a string, and a source begins with
a keyword or an annotation. So nothing is both, and an imported document has no imports of its own.
-/
namespace AvroIdl

namespace Token

/-- What a source may begin with. -/
def Kind.isOpening (k : Kind) : Bool := k.isKeyword || k == .mark .at

end Token

open Token (ofMark ofKeyword)

/-- If there is a first token, a source may begin with it. -/
def Opens (ts : List Token) : Prop := ∀ t ∈ ts.head?, t.kind.isOpening = true

section Opens

variable {ts ts' : List Token}

theorem opens_cons {t : Token} (h : t.kind.isOpening = true) : Opens (t :: ts) := by
  simpa [Opens] using h

theorem opens_append (h : Opens ts) (h' : Opens ts') : Opens (ts ++ ts') := by
  cases ts with
  | nil => exact h'
  | cons t ts => exact opens_cons (h t rfl)

theorem opens_flatMap {α : Type} {as : List α} {f : α → List Token} (h : ∀ a ∈ as, Opens (f a)) :
    Opens (as.flatMap f) := by
  induction as with
  | nil => exact nofun
  | cons a as ih =>
    obtain ⟨hfirst, hrest⟩ := List.forall_mem_cons.mp h
    exact opens_append hfirst (ih hrest)

theorem opens_headed (as : List Annotation) (k : Keyword) (ts : List Token) :
    Opens (as.flatMap Annotation.tokens ++ ofKeyword k :: ts) :=
  opens_append (opens_flatMap fun _ _ => opens_cons rfl) (opens_cons rfl)

theorem opens_declaration {d : Declaration} (h : d.isMessage = false) : Opens d.tokens := by
  cases d with
  | file d => exact opens_cons rfl
  | record d =>
    simpa only [Declaration.tokens, RecordDecl.tokens, List.append_assoc, List.cons_append]
      using opens_headed d.annotations _ _
  | enum d =>
    simpa only [Declaration.tokens, EnumDecl.tokens, List.append_assoc, List.cons_append]
      using opens_headed d.annotations _ _
  | fixed d => exact opens_headed d.annotations _ _
  | message d => cases h

theorem opens_body {b : SourceUnit.Body} (h : b.WellFormed) : Opens b.tokens := by
  cases b with
  | protocol d =>
    simpa only [SourceUnit.Body.tokens, ProtocolDecl.tokens, List.append_assoc, List.cons_append]
      using opens_headed d.annotations _ _
  | schemas space main ds =>
    refine opens_append (opens_append (opens_flatMap ?_) (opens_flatMap ?_)) (opens_flatMap ?_)
    · exact fun _ _ => opens_cons rfl
    · exact fun _ _ => opens_cons rfl
    · exact fun d hd => opens_declaration (h.2 d hd).2

/-- Only names may be spelt in another way. -/
theorem Opens.of_fits (h : Opens ts) (hfits : List.Forall₂ Token.Fits ts ts') : Opens ts' := by
  cases hfits with
  | nil => exact nofun
  | @cons printed t _ _ hfit _ =>
    have hprinted := h printed rfl
    refine opens_cons ?_
    rcases hfit.kind with hkind | ⟨hkind, -⟩
    · rwa [hkind]
    · rw [hkind] at hprinted
      cases hprinted

end Opens

namespace SourceUnit

/-- A source that is read without a problem begins with a keyword or an annotation, or is empty. -/
theorem isOpening_of_ofTokens {first : Token} {rest : List Token} {docs : List DocComment}
    (h : (ofTokens (first :: rest) docs).2 = none) :
    first.kind = .endOfFile ∨ first.kind.isOpening = true := by
  have hend : (Reader.sourceUnit.run
    { docs := docs, previous := first, rest := first :: rest }).2.failure = none := h
  obtain ⟨-, ts, hrest, hkinds, hu, hfits⟩ := Reader.spells_sourceUnit _ trivial hend
  have hopens : Opens ts := (opens_body hu).of_fits hfits
  cases ts with
  | nil =>
    have hat := Reader.atEnd_sourceUnit hend
    rw [List.nil_append] at hrest
    rw [Cursor.atEnd, Cursor.current, ← hrest] at hat
    exact .inl (beq_iff_eq.mp hat)
  | cons t ts =>
    obtain ⟨rfl, -⟩ := List.cons.inj hrest
    exact .inr (hopens first rfl)

end SourceUnit

namespace Json

/-- The bytes with which objects, arrays and strings begin. -/
def startsParts (b : UInt8) : Bool := b == Byte.leftBrace || b == 0x5B || b == Byte.doubleQuote

theorem startsParts_of_readValue {levels : Nat} {t rest : Text} {j : Json}
    (h : readValue levels t = .ok (j, rest)) (hj : j.hasParts = true) :
    ∃ b text, skipBlanks t = b :: text ∧ startsParts b = true := by
  cases levels with
  | zero => cases h
  | succ levels =>
    rw [readValue] at h
    split at h
    · cases h
    · next b text hb =>
      refine ⟨b, text, hb, ?_⟩
      by_contra hstart
      simp only [startsParts, Bool.or_eq_true, beq_iff_eq, not_or] at hstart
      obtain ⟨⟨hbrace, hbracket⟩, hquote⟩ := hstart
      rw [if_neg hbrace, if_neg hbracket, if_neg hquote] at h
      split at h
      · rw [hasParts_of_readNumber _ _ h] at hj
        cases hj
      · rw [hasParts_of_readWord _ _ h] at hj
        cases hj

end Json

namespace Lexeme

/-- A piece that no source begins with. -/
def Bars (x : Lexeme) : Prop :=
  (∃ p skipped, x.shape = .problem p skipped) ∨
    ∃ kind text escaped, x.shape = .token kind text escaped ∧ kind ≠ .endOfFile ∧
      kind.isOpening = false

theorem cut_cons (l : Location) (b : UInt8) (s : Text) :
    ∃ span, cut l (b :: s) =
      ⟨(first b s).1, b :: s.take ((first b s).2 - 1), span⟩ ::
        cut span.stop (s.drop ((first b s).2 - 1)) := by
  rw [cut]
  exact ⟨_, rfl⟩

theorem bars_of_startsParts {x : Lexeme} {b : UInt8} {s : Text}
    (h : Json.startsParts b = true) (hx : x.shape = (first b s).1) : x.Bars := by
  unfold Bars
  rw [hx]
  simp only [Json.startsParts, Bool.or_eq_true, beq_iff_eq] at h
  rcases h with (rfl | rfl) | rfl
  · exact .inr ⟨.mark .leftBrace, _, _, rfl, by simp, rfl⟩
  · exact .inr ⟨.mark .leftBracket, _, _, rfl, by simp, rfl⟩
  · change (∃ p skipped, (quoted _ _).1 = _) ∨ ∃ kind text escaped, (quoted _ _).1 = _ ∧ _
    unfold quoted
    dsimp only
    split
    · exact .inr ⟨.string, _, _, rfl, by simp, rfl⟩
    · exact .inl ⟨_, _, rfl⟩

theorem isSpace_of_isBlank {b : UInt8} (h : Json.isBlank b = true) : Byte.isSpace b = true := by
  simp only [Json.isBlank, Bool.or_eq_true, beq_iff_eq] at h
  rcases h with ((rfl | rfl) | rfl) | rfl
  all_goals rfl

theorem isSpace_of_startsParts {b : UInt8} (h : Json.startsParts b = true) :
    Byte.isSpace b = false := by
  simp only [Json.startsParts, Bool.or_eq_true, beq_iff_eq] at h
  rcases h with (rfl | rfl) | rfl
  all_goals rfl

/-- The first piece after blanks bars a text that begins, as JSON, with a value that has parts. -/
theorem exists_bars_of_skipBlanks {t rest : Text} {b : UInt8} (h : Json.skipBlanks t = b :: rest)
    (hb : Json.startsParts b = true) (l : Location) :
    ∃ blanks x later, cut l t = blanks ++ x :: later ∧ (∀ y ∈ blanks, y.shape = .blank) ∧
      x.Bars := by
  have hsplit : t.takeWhile Json.isBlank ++ b :: rest = t := by
    rw [← h]
    exact List.takeWhile_append_dropWhile
  have hblank : ∀ c ∈ t.takeWhile Json.isBlank, Byte.isSpace c = true := fun c hc =>
    isSpace_of_isBlank (List.all_eq_true.mp List.all_takeWhile c hc)
  rw [← hsplit]
  cases hspaces : t.takeWhile Json.isBlank with
  | nil =>
    obtain ⟨span, hcut⟩ := cut_cons l b rest
    exact ⟨[], _, _, hcut, by simp, bars_of_startsParts hb rfl⟩
  | cons c spaces =>
    rw [hspaces] at hblank
    obtain ⟨hc, hspaces⟩ := List.forall_mem_cons.mp hblank
    have hfirst : first c (spaces ++ b :: rest) = (.blank, 1 + spaces.length) := by
      rw [first, if_pos hc, run, List.takeWhile_append_of_pos hspaces,
        List.takeWhile_cons_of_neg (by simp [isSpace_of_startsParts hb])]
      simp
    obtain ⟨span, hcut⟩ := cut_cons l c (spaces ++ b :: rest)
    rw [hfirst] at hcut
    obtain ⟨span', hcut'⟩ := cut_cons span.stop b rest
    simp only [Nat.add_sub_cancel_left, List.drop_left, hcut'] at hcut
    exact ⟨[_], _, _, hcut, by simp, bars_of_startsParts hb rfl⟩

end Lexeme

theorem TokenStream.tokensOf_blanks (stop : Location) (pending : Option Nat) (docs : Nat)
    {blanks : List Lexeme} (h : ∀ y ∈ blanks, y.shape = .blank) (later : List Lexeme) :
    tokensOf stop pending docs (blanks ++ later) = tokensOf stop pending docs later := by
  induction blanks with
  | nil => rfl
  | cons y blanks ih =>
    obtain ⟨hy, hrest⟩ := List.forall_mem_cons.mp h
    rw [List.cons_append, tokensOf, hy]
    exact ih hrest

namespace Compilation

/-- A source whose tokens could be read begins with a token of a source. -/
theorem treeOf_eq_ok {source file : Text} {u : SourceUnit} (h : treeOf source file = .ok u) :
    (TokenStream.ofSource source file).diagnostics = [] ∧
      (SourceUnit.ofTokens (TokenStream.ofSource source file).tokens
        (TokenStream.ofSource source file).docs).2 = none := by
  unfold treeOf at h
  dsimp only at h
  split at h
  · cases h
  · next hclean =>
    refine ⟨by simpa using hclean, ?_⟩
    split at h
    · next hnone =>
      simpa [SourceUnit.diagnostics] using hnone
    · cases h

/-- The tree of a source is what was read from its tokens. -/
theorem eq_ofTokens_of_treeOf {source file : Text} {u : SourceUnit}
    (h : treeOf source file = .ok u) :
    u = (SourceUnit.ofTokens (TokenStream.ofSource source file).tokens
      (TokenStream.ofSource source file).docs).1 := by
  unfold treeOf at h
  dsimp only at h
  split at h
  · cases h
  · split at h
    · exact (Except.ok.inj h).symm
    · cases h

/-- What begins, as JSON, with a value that has parts is no source. -/
theorem treeOf_ne_ok_of_skipBlanks {source rest : Text} {b : UInt8}
    (h : Json.skipBlanks ((Text.dropStart Json.byteOrderMark source).getD source) = b :: rest)
    (hb : Json.startsParts b = true) (file : Text) (u : SourceUnit) :
    treeOf source file ≠ .ok u := by
  intro htree
  obtain ⟨hclean, hread⟩ := treeOf_eq_ok htree
  obtain ⟨start, text, hmark, htext⟩ : ∃ start text, Lexeme.skipMark source = (start, text) ∧
      text = (Text.dropStart Json.byteOrderMark source).getD source := by
    unfold Lexeme.skipMark
    rw [show Lexeme.byteOrderMark = Json.byteOrderMark from rfl]
    split
    · next rest hrest => exact ⟨_, _, rfl, by rw [hrest]; rfl⟩
    · next hnone => exact ⟨_, _, rfl, by rw [hnone]; rfl⟩
  rw [← htext] at h
  obtain ⟨blanks, x, later, hcut, hblanks, hx⟩ := Lexeme.exists_bars_of_skipBlanks h hb start
  simp only [TokenStream.ofSource, hmark, hcut] at hclean hread
  rcases hx with ⟨p, skipped, hshape⟩ | ⟨kind, text, escaped, hshape, hend, hopening⟩
  · simp [List.filterMap_append, TokenStream.diagnostic?, hshape] at hclean
  · rw [TokenStream.tokensOf_blanks _ _ _ hblanks, TokenStream.tokensOf, hshape] at hread
    rcases SourceUnit.isOpening_of_ofTokens hread with hkind | hkind
    · exact hend hkind
    · rw [hopening] at hkind
      cases hkind

/-- The text of a value that has parts is no source. -/
theorem treeOf_ne_ok_of_parse? {source : Text} {j : Json} (h : Json.parse? source = some j)
    (hj : j.hasParts = true) (file : Text) (u : SourceUnit) : treeOf source file ≠ .ok u := by
  obtain ⟨levels, rest, hread⟩ := Json.readValue_of_parse? h
  obtain ⟨b, text, hskip, hb⟩ := Json.startsParts_of_readValue hread hj
  exact treeOf_ne_ok_of_skipBlanks hskip hb file u

end Compilation

namespace Document

theorem hasParts_of_ofSchema {j : Json} {document : Document}
    (h : ofSchema true j = .ok document) : j.hasParts = true := by
  cases j with
  | string _ => rfl
  | array _ => rfl
  | object _ => rfl
  | _ => cases h

theorem hasParts_of_ofProtocol {j : Json} {document : Document}
    (h : ofProtocol true j = .ok document) : j.hasParts = true := by
  cases j with
  | object _ => rfl
  | _ => cases h

end Document

namespace Project

open Import (Target)

variable {x : Project} {t : Target} {document : Document}

/-- A file that can be imported as a document is no source. -/
theorem unit?_eq_none_of_document (hroot : t.path ≠ x.root)
    (h : Import.document? x.tree t = some document) : x.unit? t.path = none := by
  unfold Import.document? at h
  simp only [Option.bind_eq_some_iff] at h
  obtain ⟨contents, hread, json, hparse, h⟩ := h
  have hparts : json.hasParts = true := by
    split at h
    · exact Document.hasParts_of_ofProtocol (eq_ok_of_toOption h)
    · exact Document.hasParts_of_ofSchema (eq_ok_of_toOption h)
  rw [unit?, source?, if_neg hroot, hread, Option.bind_some]
  cases htree : Compilation.treeOf contents (x.importer t.path).text with
  | error ds => rfl
  | ok u => exact absurd htree (Compilation.treeOf_ne_ok_of_parse? hparse hparts _ u)

/-- A document imports nothing. -/
theorem imports_eq_nil_of_document (hroot : t.path ≠ x.root)
    (h : Import.document? x.tree t = some document) : x.imports t.path = [] := by
  rw [imports, unit?_eq_none_of_document hroot h]

end Project

end AvroIdl
