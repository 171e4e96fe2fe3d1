import AvroIdl.Documentation
import AvroIdl.Token
import AvroIdl.Tree

/-!
# Nodes that comments document

The nodes of a tree that can carry documentation, in the order of the source, each with the places
at which its comments are looked for. A comment belongs to the token after it, so a node takes the
comments of the tokens that start at its places.
-/
namespace AvroIdl

/-- A node that can carry documentation. -/
structure Documented where
  /-- The starts of the tokens whose comments are for the node. -/
  places : List Location
  doc : Option Text
  deriving DecidableEq, Repr

def Declarator.documented (d : Declarator) : Documented := ⟨[d.span.start], d.doc⟩

def FieldDecl.documented (d : FieldDecl) : List Documented :=
  ⟨[d.span.start], d.doc⟩ :: d.declarators.map Declarator.documented

def RecordDecl.documented (d : RecordDecl) : List Documented :=
  ⟨[d.span.start], d.doc⟩ :: d.fields.flatMap FieldDecl.documented

/-- The comment of a parameter stands before its type or before its name. -/
def Parameter.documented (p : Parameter) : Documented :=
  ⟨[p.type.mark.span.start, p.declarator.span.start], p.declarator.doc⟩

def MessageDecl.documented (d : MessageDecl) : List Documented :=
  ⟨[d.span.start], d.doc⟩ :: d.parameters.map Parameter.documented

def Declaration.documented : Declaration → List Documented
  | .file _ => []
  | .record d => d.documented
  | .enum d => [⟨[d.span.start], d.doc⟩]
  | .fixed d => [⟨[d.span.start], d.doc⟩]
  | .message d => d.documented

def SourceUnit.Body.documented : SourceUnit.Body → List Documented
  | .protocol d => ⟨[d.span.start], d.doc⟩ :: d.body.flatMap Declaration.documented
  | .schemas _ _ ds => ds.flatMap Declaration.documented

/-- The documentation in the comment that stands right before a token. -/
def Token.documentation (docs : List DocComment) (t : Token) : Option Text :=
  t.doc.bind fun i => docs[i]?.bind fun c => Documentation.ofComment c.text

/-- The nodes take the comments of the tokens, one after the other; only a parameter has two tokens
that may have comments, and the second one counts first. -/
inductive Shows (docs : List DocComment) : List Documented → List Token → Prop
  | nil : Shows docs [] []
  | one {ns : List Documented} {ts : List Token} (t : Token) (rest : Shows docs ns ts) :
    Shows docs (⟨[t.span.start], t.documentation docs⟩ :: ns) (t :: ts)
  | two {ns : List Documented} {ts : List Token} (t t' : Token) (rest : Shows docs ns ts) :
    Shows docs
      (⟨[t.span.start, t'.span.start], (t'.documentation docs).or (t.documentation docs)⟩ :: ns)
      (t :: t' :: ts)

namespace Shows

variable {docs : List DocComment} {ns ns' : List Documented} {ts ts' : List Token}

theorem append (h : Shows docs ns ts) (h' : Shows docs ns' ts') :
    Shows docs (ns ++ ns') (ts ++ ts') := by
  induction h with
  | nil => exact h'
  | one t rest ih => exact .one t ih
  | two t t' rest ih => exact .two t t' ih

/-- The places of the nodes are those of the tokens. -/
theorem places_eq (h : Shows docs ns ts) :
    ns.flatMap (·.places) = ts.map (·.span.start) := by
  induction h with
  | nil => rfl
  | one t rest ih => simp [ih]
  | two t t' rest ih => simp [ih]

/-- What a single node says. -/
theorem of_mem (h : Shows docs ns ts) {n : Documented} (hn : n ∈ ns) :
    (∃ t ∈ ts, n = ⟨[t.span.start], t.documentation docs⟩) ∨
      ∃ t ∈ ts, ∃ t' ∈ ts, n = ⟨[t.span.start, t'.span.start],
        (t'.documentation docs).or (t.documentation docs)⟩ := by
  induction h with
  | nil => cases hn
  | one t rest ih =>
    rcases List.mem_cons.mp hn with rfl | hn
    · exact .inl ⟨t, List.mem_cons_self, rfl⟩
    · rcases ih hn with ⟨u, hu, rfl⟩ | ⟨u, hu, v, hv, rfl⟩
      · exact .inl ⟨u, List.mem_cons_of_mem _ hu, rfl⟩
      · exact .inr ⟨u, List.mem_cons_of_mem _ hu, v, List.mem_cons_of_mem _ hv, rfl⟩
  | two t t' rest ih =>
    rcases List.mem_cons.mp hn with rfl | hn
    · exact .inr ⟨t, List.mem_cons_self, t', by simp, rfl⟩
    · rcases ih hn with ⟨u, hu, rfl⟩ | ⟨u, hu, v, hv, rfl⟩
      · exact .inl ⟨u, by simp [hu], rfl⟩
      · exact .inr ⟨u, by simp [hu], v, by simp [hv], rfl⟩

end Shows

end AvroIdl
