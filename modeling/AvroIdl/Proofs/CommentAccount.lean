import AvroIdl.Proofs.CommentTaking
import AvroIdl.Proofs.DocumentSyntax
import AvroIdl.Proofs.Guarantee
import AvroIdl.Proofs.TokenCover
import Mathlib.Data.List.Pairwise

/-!
# What becomes of comments

Every documentation comment of a source that is read is either listed as an orphan, once, or a
single node takes it. A node that takes one comment has its text as documentation. A parameter may
take two, one before its type and one before its name, and has the text of one of them only: the
other comment is lost without a warning, unless both say the same.
-/
namespace AvroIdl

namespace Lexeme

/-- A piece that is cut later starts later. -/
theorem le_offset_of_mem_cut {l : Location} {s : Text} {x : Lexeme} (hx : x ∈ cut l s) :
    l.offset ≤ x.span.start.offset := by
  fun_induction cut l s with
  | case1 => cases hx
  | case2 =>
    rename_i l b s shape n hfirst text stop ih
    rcases List.mem_cons.mp hx with rfl | hx
    · exact Nat.le_refl _
    · have hstop : stop.offset = l.offset + text.length := Location.offset_after l text
      have hlater := ih hx
      omega

theorem ordered_cut (l : Location) (s : Text) :
    (cut l s).Pairwise fun x y => x.span.start.offset < y.span.start.offset := by
  fun_induction cut l s with
  | case1 => exact .nil
  | case2 =>
    rename_i l b s shape n hfirst text stop ih
    refine List.pairwise_cons.mpr ⟨fun y hy => ?_, ih⟩
    have hstop : stop.offset = l.offset + text.length := Location.offset_after l text
    have hlength : 1 ≤ text.length := by simp [text]
    have hlater := le_offset_of_mem_cut hy
    dsimp only
    omega

end Lexeme

namespace TokenStream

open Lexeme

/-- Comments are numbered as they come, and a comment belongs to one token at most. -/
theorem docs_tokensOf (stop : Location) (pending : Option Nat) (docs : Nat) (xs : List Lexeme)
    (hpending : ∀ i, pending = some i → i < docs) :
    ((tokensOf stop pending docs xs).filterMap (·.doc)).Pairwise (· < ·) ∧
      ∀ i ∈ (tokensOf stop pending docs xs).filterMap (·.doc),
        (pending = some i ∨ docs ≤ i) ∧ i < docs + (xs.filterMap doc?).length := by
  fun_induction tokensOf stop pending docs xs with
  | case1 pending docs =>
    cases pending with
    | none => simp
    | some p => simpa using hpending p rfl
  | case2 pending docs x xs hshape ih =>
    rw [List.filterMap_cons_none (by rw [doc?, hshape])]
    exact ih hpending
  | case3 pending docs x xs p skipped hshape ih =>
    rw [List.filterMap_cons_none (by rw [doc?, hshape])]
    exact ih hpending
  | case4 pending docs x xs hshape ih =>
    rw [List.filterMap_cons_none (by rw [doc?, hshape])]
    obtain ⟨hordered, hnumbers⟩ := ih (by simp)
    exact ⟨hordered, fun i hi => ⟨.inr (by simpa using (hnumbers i hi).1), (hnumbers i hi).2⟩⟩
  | case5 pending docs x xs hshape ih =>
    rw [List.filterMap_cons_some (by rw [doc?, hshape]), List.length_cons]
    obtain ⟨hordered, hnumbers⟩ := ih (by rintro i ⟨⟩; omega)
    refine ⟨hordered, fun i hi => ?_⟩
    obtain ⟨hfirst, hlast⟩ := hnumbers i hi
    have hle : docs ≤ i := by
      rcases hfirst with hfirst | hfirst
      · cases hfirst
        exact Nat.le_refl _
      · omega
    exact ⟨.inr hle, by omega⟩
  | case6 pending docs x xs kind text escaped hshape ih =>
    rw [List.filterMap_cons_none (l := xs) (by rw [doc?, hshape])]
    obtain ⟨hordered, hnumbers⟩ := ih (by simp)
    have hlater : ∀ i ∈ (tokensOf stop none docs xs).filterMap (·.doc),
        docs ≤ i ∧ i < docs + (xs.filterMap doc?).length :=
      fun i hi => ⟨by simpa using (hnumbers i hi).1, (hnumbers i hi).2⟩
    cases pending with
    | none =>
      rw [List.filterMap_cons_none rfl]
      exact ⟨hordered, fun i hi => ⟨.inr (hlater i hi).1, (hlater i hi).2⟩⟩
    | some p =>
      simp only [List.filterMap_cons]
      have hp := hpending p rfl
      refine ⟨List.pairwise_cons.mpr ⟨fun i hi => hp.trans_le (hlater i hi).1, hordered⟩, ?_⟩
      refine List.forall_mem_cons.mpr ⟨⟨.inl rfl, by omega⟩, fun i hi => ?_⟩
      exact ⟨.inr (hlater i hi).1, (hlater i hi).2⟩

/-- The comments of the tokens of a source can all be taken. -/
theorem clear_ofSource (source file : Text) :
    Reader.Clear (ofSource source file).docs.length (ofSource source file).tokens [] := by
  rw [ofSource_eq]
  obtain ⟨hordered, hnumbers⟩ := docs_tokensOf
    ((startOf source).after (source.drop (markLength source))) none 0
    (cut (startOf source) (source.drop (markLength source))) (by simp)
  refine ⟨fun i hi => ?_, hordered.imp Nat.ne_of_lt, by simp⟩
  simpa using (hnumbers i hi).2

theorem span_of_doc? {x : Lexeme} {c : DocComment} (hc : doc? x = some c) : c.span = x.span := by
  unfold doc? at hc
  split at hc <;> cases hc
  rfl

/-- Comments stand in the order of the source. -/
theorem ordered_docs (source file : Text) :
    ((ofSource source file).docs.map (·.span)).Pairwise
      fun a b => a.start.offset < b.start.offset := by
  rw [ofSource_eq, List.pairwise_map]
  refine (ordered_cut _ _).filterMap _ fun x y hxy c hc d hd => ?_
  rwa [span_of_doc? hc, span_of_doc? hd]

/-- No two tokens start at the same place. -/
theorem starts_nodup (source file : Text) :
    ((ofSource source file).tokens.map (·.span.start)).Nodup := by
  rw [List.Nodup, List.pairwise_map]
  refine (covers_ofSource source file).starts.imp fun h heq => ?_
  rw [heq] at h
  exact Nat.lt_irrefl _ h

end TokenStream

namespace Reader

variable {docs : List DocComment} {used : List Nat}

theorem orphansOf_sublist (docs : List DocComment) (used : List Nat) :
    (orphansOf docs used).Sublist (docs.map (·.span)) := by
  have hspans : docs.zipIdx.map (fun x => x.1.span) = docs.map (·.span) := by
    conv_rhs => rw [← List.zipIdx_map_fst 0 docs, List.map_map]
    rfl
  rw [← hspans]
  exact List.filter_sublist.map _

/-- A comment that has not been taken is listed once. -/
theorem count_orphansOf_eq_one_iff (hdocs : (docs.map (·.span)).Nodup) {i : Nat} {c : DocComment}
    (hc : docs[i]? = some c) : (orphansOf docs used).count c.span = 1 ↔ i ∉ used := by
  constructor
  · intro hcount
    have hlisted : c.span ∈ orphansOf docs used := List.count_pos_iff.mp (by omega)
    obtain ⟨⟨d, j⟩, hmem, hspan⟩ := List.mem_map.mp hlisted
    obtain ⟨hd, hunused⟩ := List.mem_filter.mp hmem
    have hd : docs[j]? = some d := List.mem_zipIdx_iff_getElem?.mp hd
    have hij : i = j := by
      refine (List.getElem?_inj (by simpa using (List.getElem?_eq_some_iff.mp hc).1) hdocs).mp ?_
      rw [List.getElem?_map, List.getElem?_map, hc, hd]
      exact congrArg some hspan.symm
    simpa [hij] using hunused
  · intro hunused
    refine List.count_eq_one_of_mem (hdocs.sublist (orphansOf_sublist docs used)) ?_
    refine List.mem_map.mpr ⟨(c, i), List.mem_filter.mpr ⟨?_, by simpa using hunused⟩, rfl⟩
    exact List.mem_zipIdx_iff_getElem?.mpr hc

end Reader

namespace TokenStream

/-- The comment with this number stands right before a token at which the node looks for one. -/
def Gives (s : TokenStream) (i : Nat) (n : Documented) : Prop :=
  ∃ t ∈ s.tokens, t.doc = some i ∧ t.span.start ∈ n.places

/-- The comment is for this node of a tree, and for no other. -/
def GivesOnly (s : TokenStream) (u : SourceUnit) (i : Nat) (n : Documented) : Prop :=
  ∃ before after, u.body.documented = before ++ n :: after ∧ s.Gives i n ∧
    ∀ m ∈ before ++ after, ¬s.Gives i m

/-- All comments that are for the node say the same. -/
def Agrees (s : TokenStream) (n : Documented) : Prop :=
  ∀ t ∈ s.tokens, ∀ t' ∈ s.tokens, t.doc.isSome → t'.doc.isSome → t.span.start ∈ n.places →
    t'.span.start ∈ n.places → t.documentation s.docs = t'.documentation s.docs

instance (s : TokenStream) (n : Documented) : Decidable (s.Agrees n) :=
  inferInstanceAs (Decidable (∀ t ∈ s.tokens, _))

/-- The comment is listed as an orphan, once, or it is for a single node; never both. -/
def Placed (s : TokenStream) (u : SourceUnit) (i : Nat) (c : DocComment) : Prop :=
  Xor (u.orphans.count c.span = 1) (∃ n, s.GivesOnly u i n)

/-- The comment is listed as an orphan, once, or it is for a single node that has its text as
documentation; never both. -/
def Kept (s : TokenStream) (u : SourceUnit) (i : Nat) (c : DocComment) : Prop :=
  Xor (u.orphans.count c.span = 1)
    (∃ n, s.GivesOnly u i n ∧ n.doc = Documentation.ofComment c.text)

section GivesOnly

variable {s : TokenStream} {u : SourceUnit} {i : Nat} {n m : Documented}

theorem GivesOnly.mem (h : s.GivesOnly u i n) : n ∈ u.body.documented ∧ s.Gives i n := by
  obtain ⟨before, after, hnodes, hgives, -⟩ := h
  exact ⟨by simp [hnodes], hgives⟩

theorem GivesOnly.eq (h : s.GivesOnly u i m) (hn : n ∈ u.body.documented)
    (hgives : s.Gives i n) : n = m := by
  obtain ⟨before, after, hnodes, -, hothers⟩ := h
  rw [hnodes] at hn
  by_contra hne
  exact hothers n (by simpa [hne] using hn) hgives

end GivesOnly

/-- The tree takes the comments of these tokens of the stream, and lists all others. -/
structure Attributes (s : TokenStream) (u : SourceUnit) (vs : List Token) : Prop where
  clear : Reader.Clear s.docs.length s.tokens []
  starts : (s.tokens.map (·.span.start)).Nodup
  passed : vs.Sublist s.tokens
  shows : Shows s.docs u.body.documented vs
  listed : u.orphans = Reader.orphansOf s.docs (vs.filterMap (·.doc)).reverse

namespace Attributes

variable {s : TokenStream} {u : SourceUnit} {vs : List Token} {i : Nat} {c : DocComment}
  {n : Documented}

theorem gives_iff (h : s.Attributes u vs) (hn : n ∈ u.body.documented) :
    s.Gives i n ↔ ∃ t ∈ vs, t.doc = some i ∧ t.span.start ∈ n.places := by
  constructor
  · rintro ⟨t, ht, hdoc, hplace⟩
    have hmem : t.span.start ∈ vs.map (·.span.start) :=
      h.shows.places_eq ▸ List.mem_flatMap.mpr ⟨n, hn, hplace⟩
    obtain ⟨t', ht', hstart⟩ := List.mem_map.mp hmem
    obtain rfl := List.inj_on_of_nodup_map h.starts (h.passed.subset ht') ht hstart
    exact ⟨t', ht', hdoc, hplace⟩
  · rintro ⟨t, ht, hdoc, hplace⟩
    exact ⟨t, h.passed.subset ht, hdoc, hplace⟩

/-- A comment belongs to one token. -/
theorem eq_of_doc (h : s.Attributes u vs) {t t' : Token} (ht : t ∈ s.tokens)
    (ht' : t' ∈ s.tokens) (hdoc : t.doc = some i) (hdoc' : t'.doc = some i) : t = t' := by
  by_contra hne
  have hapart := List.pairwise_filterMap.mp h.clear.distinct
  have : Std.Symm fun t t' : Token => ∀ i, t.doc = some i → ∀ j, t'.doc = some j → i ≠ j :=
    ⟨fun _ _ h i hi j hj => (h j hj i hi).symm⟩
  exact hapart.forall ht ht' hne i hdoc i hdoc' rfl

/-- The comments of the tokens at which nodes looked for comments, and no others, are for a single
node. -/
theorem exists_givesOnly_iff (h : s.Attributes u vs) :
    (∃ n, s.GivesOnly u i n) ↔ i ∈ vs.filterMap (·.doc) := by
  constructor
  · rintro ⟨n, before, after, hnodes, hgives, -⟩
    obtain ⟨t, ht, hdoc, -⟩ := (h.gives_iff (by simp [hnodes])).mp hgives
    exact List.mem_filterMap.mpr ⟨t, ht, hdoc⟩
  · intro hi
    obtain ⟨t, ht, hdoc⟩ := List.mem_filterMap.mp hi
    have hplace : t.span.start ∈ u.body.documented.flatMap (·.places) :=
      h.shows.places_eq ▸ List.mem_map.mpr ⟨t, ht, rfl⟩
    obtain ⟨n, hn, hplace⟩ := List.mem_flatMap.mp hplace
    obtain ⟨before, after, hnodes⟩ := List.append_of_mem hn
    refine ⟨n, before, after, hnodes, ⟨t, h.passed.subset ht, hdoc, hplace⟩, ?_⟩
    rintro m hm ⟨t', ht', hdoc', hplace'⟩
    obtain rfl := h.eq_of_doc ht' (h.passed.subset ht) hdoc' hdoc
    have hplaces : (u.body.documented.flatMap (·.places)).Nodup := by
      rw [h.shows.places_eq]
      exact h.starts.sublist (h.passed.map _)
    have hapart := (List.perm_middle.flatMap_right _).nodup (hnodes ▸ hplaces)
    rw [List.flatMap_cons] at hapart
    exact List.disjoint_of_nodup_append hapart hplace (List.mem_flatMap.mpr ⟨m, hm, hplace'⟩)

theorem documentation_eq {t : Token} (hc : s.docs[i]? = some c) (hdoc : t.doc = some i) :
    t.documentation s.docs = Documentation.ofComment c.text := by
  simp [Token.documentation, hdoc, hc]

/-- A node that takes comments says what they say, if they all say the same. -/
theorem doc_eq_of_agrees (h : s.Attributes u vs) (hn : n ∈ u.body.documented)
    (hagrees : s.Agrees n) (hc : s.docs[i]? = some c) (hgives : s.Gives i n) :
    n.doc = Documentation.ofComment c.text := by
  obtain ⟨t, ht, hdoc, hplace⟩ := (h.gives_iff hn).mp hgives
  rw [← documentation_eq hc hdoc]
  have hother {t' : Token} (ht' : t' ∈ vs) (hplace' : t'.span.start ∈ n.places) :
      t'.documentation s.docs = none ∨ t'.documentation s.docs = t.documentation s.docs := by
    cases hdoc' : t'.doc with
    | none => exact .inl (by simp [Token.documentation, hdoc'])
    | some j =>
      exact .inr (hagrees t' (h.passed.subset ht') t (h.passed.subset ht) (by simp [hdoc'])
        (by simp [hdoc]) hplace' hplace)
  have hsame {t' : Token} (ht' : t' ∈ vs) (hstart : t.span.start = t'.span.start) : t = t' :=
    List.inj_on_of_nodup_map h.starts (h.passed.subset ht) (h.passed.subset ht') hstart
  rcases h.shows.of_mem hn with ⟨t₁, ht₁, rfl⟩ | ⟨t₁, ht₁, t₂, ht₂, rfl⟩
  · rw [hsame ht₁ (List.mem_singleton.mp hplace)]
  · rcases List.mem_pair.mp hplace with hstart | hstart
    · obtain rfl := hsame ht₁ hstart
      rcases hother ht₂ (by simp) with hnone | heq
      · simp [hnone]
      · simp [heq]
    · obtain rfl := hsame ht₂ hstart
      rcases hother ht₁ (by simp) with hnone | heq
      · simp [hnone]
      · simp [heq]

theorem count_orphans_eq_one_iff (h : s.Attributes u vs) (hdocs : (s.docs.map (·.span)).Nodup)
    (hc : s.docs[i]? = some c) :
    u.orphans.count c.span = 1 ↔ ¬∃ n, s.GivesOnly u i n := by
  rw [h.exists_givesOnly_iff, h.listed, Reader.count_orphansOf_eq_one_iff hdocs hc,
    List.mem_reverse]

theorem placed (h : s.Attributes u vs) (hdocs : (s.docs.map (·.span)).Nodup)
    (hc : s.docs[i]? = some c) : s.Placed u i c := by
  rw [Placed, h.count_orphans_eq_one_iff hdocs hc, xor_iff_not_iff]
  tauto

/-- The text of every comment is kept exactly if no node takes two comments that say different
things. -/
theorem kept_iff (h : s.Attributes u vs) (hdocs : (s.docs.map (·.span)).Nodup) :
    (∀ i c, s.docs[i]? = some c → s.Kept u i c) ↔ ∀ n ∈ u.body.documented, s.Agrees n := by
  constructor
  · intro hkept n hn
    have hnode {t : Token} (ht : t ∈ s.tokens) (hsome : t.doc.isSome)
        (hplace : t.span.start ∈ n.places) : n.doc = t.documentation s.docs := by
      obtain ⟨i, hdoc⟩ := Option.isSome_iff_exists.mp hsome
      have hc := List.getElem?_eq_getElem (h.clear.known i (List.mem_filterMap.mpr ⟨t, ht, hdoc⟩))
      have hgives : s.Gives i n := ⟨t, ht, hdoc, hplace⟩
      obtain ⟨t', ht', hdoc', -⟩ := (h.gives_iff hn).mp hgives
      have htaken : ∃ m, s.GivesOnly u i m :=
        h.exists_givesOnly_iff.mpr (List.mem_filterMap.mpr ⟨t', ht', hdoc'⟩)
      rcases hkept i _ hc with ⟨hcount, -⟩ | ⟨⟨m, hm, hsaid⟩, -⟩
      · exact absurd htaken ((h.count_orphans_eq_one_iff hdocs hc).mp hcount)
      · rw [hm.eq hn hgives, hsaid, documentation_eq hc hdoc]
    intro t ht t' ht' hdoc hdoc' hplace hplace'
    exact (hnode ht hdoc hplace).symm.trans (hnode ht' hdoc' hplace')
  · intro hagrees i c hc
    have hiff : (∃ n, s.GivesOnly u i n ∧ n.doc = Documentation.ofComment c.text) ↔
        ∃ n, s.GivesOnly u i n := by
      refine ⟨fun ⟨n, hn, _⟩ => ⟨n, hn⟩, fun ⟨n, hn⟩ => ⟨n, hn, ?_⟩⟩
      obtain ⟨hmem, hgives⟩ := hn.mem
      exact h.doc_eq_of_agrees hmem (hagrees n hmem) hc hgives
    rw [Kept, hiff]
    exact h.placed hdocs hc

/-- A node that looks for a comment at one place takes no other. -/
theorem agrees_of_single (h : s.Attributes u vs) (place : Location) (doc : Option Text) :
    s.Agrees ⟨[place], doc⟩ := by
  intro t ht t' ht' _ _ hplace hplace'
  have hstart := (List.mem_singleton.mp hplace).trans (List.mem_singleton.mp hplace').symm
  rw [List.inj_on_of_nodup_map h.starts ht ht' hstart]

end Attributes

end TokenStream

theorem Declaration.mem_documented {d : Declaration} {n : Documented} (hn : n ∈ d.documented) :
    (∃ place doc, n = ⟨[place], doc⟩) ∨
      ∃ m, d = .message m ∧ ∃ p ∈ m.parameters, n = p.documented := by
  cases d with
  | file d => cases hn
  | record d =>
    rcases List.mem_cons.mp hn with rfl | hn
    · exact .inl ⟨_, _, rfl⟩
    obtain ⟨f, -, hn⟩ := List.mem_flatMap.mp hn
    rcases List.mem_cons.mp hn with rfl | hn
    · exact .inl ⟨_, _, rfl⟩
    obtain ⟨v, -, rfl⟩ := List.mem_map.mp hn
    exact .inl ⟨_, _, rfl⟩
  | enum d =>
    obtain rfl := List.mem_singleton.mp hn
    exact .inl ⟨_, _, rfl⟩
  | fixed d =>
    obtain rfl := List.mem_singleton.mp hn
    exact .inl ⟨_, _, rfl⟩
  | message d =>
    rcases List.mem_cons.mp hn with rfl | hn
    · exact .inl ⟨_, _, rfl⟩
    obtain ⟨p, hp, rfl⟩ := List.mem_map.mp hn
    exact .inr ⟨d, rfl, p, hp, rfl⟩

/-- Only a parameter looks for comments at two places. -/
theorem SourceUnit.mem_documented {u : SourceUnit} {n : Documented}
    (hn : n ∈ u.body.documented) : (∃ place doc, n = ⟨[place], doc⟩) ∨
      ∃ m, .message m ∈ u.declarations ∧ ∃ p ∈ m.parameters, n = p.documented := by
  have hdeclared (ds : List Declaration) (hn : n ∈ ds.flatMap Declaration.documented) :
      (∃ place doc, n = ⟨[place], doc⟩) ∨
        ∃ m, .message m ∈ ds ∧ ∃ p ∈ m.parameters, n = p.documented := by
    obtain ⟨d, hd, hn⟩ := List.mem_flatMap.mp hn
    rcases Declaration.mem_documented hn with hsingle | ⟨m, rfl, hp⟩
    · exact .inl hsingle
    · exact .inr ⟨m, hd, hp⟩
  obtain ⟨body, orphans⟩ := u
  cases body with
  | protocol d =>
    rcases List.mem_cons.mp hn with rfl | hn
    · exact .inl ⟨_, _, rfl⟩
    · exact hdeclared d.body hn
  | schemas space main ds => exact hdeclared ds hn

theorem SourceUnit.documented_of_message {u : SourceUnit} {m : MessageDecl} {p : Parameter}
    (hm : .message m ∈ u.declarations) (hp : p ∈ m.parameters) :
    p.documented ∈ u.body.documented := by
  have hmem : p.documented ∈ u.declarations.flatMap Declaration.documented :=
    List.mem_flatMap.mpr ⟨_, hm, List.mem_cons_of_mem _ (List.mem_map.mpr ⟨p, hp, rfl⟩)⟩
  obtain ⟨body, orphans⟩ := u
  cases body with
  | protocol d => exact List.mem_cons_of_mem _ hmem
  | schemas space main ds => exact hmem

namespace Compilation

open TokenStream

theorem exists_attributes_of_treeOf {source file : Text} {u : SourceUnit}
    (h : treeOf source file = .ok u) : ∃ vs, (ofSource source file).Attributes u vs := by
  have hclear := clear_ofSource source file
  have hread := (treeOf_eq_ok h).2
  have hunit := eq_ofTokens_of_treeOf h
  obtain ⟨before, last, htokens, -⟩ := (covers_ofSource source file).ended_by
  obtain ⟨first, rest, hcons⟩ := List.exists_cons_of_ne_nil
    (show (ofSource source file).tokens ≠ [] by simp [htokens])
  rw [hcons, SourceUnit.ofTokens] at hread hunit
  obtain ⟨vs, hpassed, hshows, hlisted⟩ := Reader.takesFrom_sourceUnit rfl (hcons ▸ hclear) hread
  refine ⟨vs, hclear, starts_nodup source file, hcons ▸ hpassed, ?_, ?_⟩
  · rw [hunit]
    exact hshows
  · rw [hunit]
    exact hlisted

/-- Comments that document nothing are listed in the order of the source. Every comment is listed
once or is for a single node, and the text of all of them is kept exactly if the comments of every
parameter say the same. -/
theorem comments_of_treeOf {source file : Text} {u : SourceUnit} (h : treeOf source file = .ok u) :
    u.orphans.Pairwise (fun a b => a.start.offset < b.start.offset) ∧
      (∀ i c, (ofSource source file).docs[i]? = some c →
        (ofSource source file).Placed u i c) ∧
      ((∀ i c, (ofSource source file).docs[i]? = some c → (ofSource source file).Kept u i c) ↔
        ∀ m, .message m ∈ u.declarations → ∀ p ∈ m.parameters,
          (ofSource source file).Agrees p.documented) := by
  obtain ⟨vs, hvs⟩ := exists_attributes_of_treeOf h
  have hordered := ordered_docs source file
  have hdocs : ((ofSource source file).docs.map (·.span)).Nodup := by
    refine List.Pairwise.imp ?_ hordered
    rintro a _ hlt rfl
    exact Nat.lt_irrefl _ hlt
  refine ⟨?_, fun i c hc => hvs.placed hdocs hc, ?_⟩
  · rw [hvs.listed]
    exact hordered.sublist (Reader.orphansOf_sublist _ _)
  · rw [hvs.kept_iff hdocs]
    constructor
    · exact fun hagrees m hm p hp => hagrees _ (SourceUnit.documented_of_message hm hp)
    · intro hagrees n hn
      rcases SourceUnit.mem_documented hn with ⟨place, doc, rfl⟩ | ⟨m, hm, p, hp, rfl⟩
      · exact hvs.agrees_of_single place doc
      · exact hagrees m hm p hp

/-- The second comment of a parameter may hide the first one. -/
def doublySource : Text := "protocol P \x7b void f(/** a */ int /** b */ x); \x7d"

/-- A comment may be lost without a warning. -/
theorem exists_lost_comment :
    ∃ u, treeOf doublySource "p.avdl" = .ok u ∧
      ∃ i c, (ofSource doublySource "p.avdl").docs[i]? = some c ∧
        ¬(ofSource doublySource "p.avdl").Kept u i c := by
  have hrun : (treeOf doublySource "p.avdl").toOption.any (fun u =>
      u.orphans.isEmpty && u.body.documented.all (·.doc != some ("a" : Text))) = true := by
    decide +kernel
  have hdoc : ((ofSource doublySource "p.avdl").docs[0]?.any fun c =>
      Documentation.ofComment c.text == some ("a" : Text)) = true := by
    decide +kernel
  obtain ⟨u, hu, hcheck⟩ := exists_ok_of_any hrun
  obtain ⟨c, hc, htext⟩ := (Option.any_eq_true _ _).mp hdoc
  simp only [Bool.and_eq_true, List.isEmpty_iff, List.all_eq_true, bne_iff_ne] at hcheck
  refine ⟨u, hu, 0, c, hc, ?_⟩
  rintro (⟨hcount, -⟩ | ⟨⟨n, hn, hn'⟩, -⟩)
  · simp [hcheck.1] at hcount
  · exact hcheck.2 n hn.mem.1 (hn'.trans (beq_iff_eq.mp htext))

def plainSource : Text :=
  "/** P */ protocol P \x7b void f(/** a */ int x, int /** b */ y); /** lost */ \x7d"

theorem plainSource_comments :
    ∃ u, treeOf plainSource "p.avdl" = .ok u ∧ u.orphans.length = 1 ∧
      ∀ i c, (ofSource plainSource "p.avdl").docs[i]? = some c →
        (ofSource plainSource "p.avdl").Kept u i c := by
  have hrun : (treeOf plainSource "p.avdl").toOption.any (fun u =>
      u.orphans.length == 1 && decide (∀ n ∈ u.body.documented,
        (ofSource plainSource "p.avdl").Agrees n)) = true := by
    decide +kernel
  obtain ⟨u, hu, hcheck⟩ := exists_ok_of_any hrun
  simp only [Bool.and_eq_true, beq_iff_eq, decide_eq_true_eq] at hcheck
  refine ⟨u, hu, hcheck.1, (comments_of_treeOf hu).2.2.mpr fun m hm p hp => ?_⟩
  exact hcheck.2 _ (SourceUnit.documented_of_message hm hp)

end Compilation

end AvroIdl
