import AvroIdl.Tree.Parse

/-!
# Printing source trees

The tokens of a source tree in the order of the grammar, with every name as an identifier. A tree is
well formed if it keeps to what the grammar can say: the types and JSON values in it are not nested
too deeply, only types without parts are optional, and lists that cannot be empty are not. `bare` is
a tree without places and documentation.
-/
namespace AvroIdl

namespace Token

def ofMark (m : Mark) : Token := { kind := .mark m, text := [m.byte] }

def ofKeyword (k : Keyword) : Token := { kind := .keyword k, text := k.text }

def ofName (text : Text) (escaped : Bool) : Token :=
  { kind := .identifier, text := text, escaped := escaped }

def ofLiteral (kind : Kind) (text : Text) : Token := { kind := kind, text := text }

@[simp] theorem kind_ofMark (m : Mark) : (ofMark m).kind = .mark m := rfl

@[simp] theorem kind_ofKeyword (k : Keyword) : (ofKeyword k).kind = .keyword k := rfl

@[simp] theorem kind_ofName (text : Text) (escaped : Bool) :
    (ofName text escaped).kind = .identifier := rfl

@[simp] theorem kind_ofLiteral (kind : Kind) (text : Text) : (ofLiteral kind text).kind = kind :=
  rfl

/-- The kinds of tokens whose text a tree keeps. -/
def Kind.keepsText : Kind → Bool
  | identifier | integer | float | string => true
  | _ => false

/-- The token is the printed one, apart from its place and its documentation. -/
structure Matches (printed t : Token) : Prop where
  kind : t.kind = printed.kind
  text : printed.kind.keepsText = true → t.text = printed.text ∧ t.escaped = printed.escaped

/-- The token has the kind and the text of the printed one, or is a keyword in the place of a name
and has its text. -/
structure Fits (printed t : Token) : Prop where
  kind : t.kind = printed.kind ∨ printed.kind = .identifier ∧ t.kind.isKeyword = true
  text : printed.kind.keepsText = true → t.text = printed.text

end Token

open Token (ofMark ofKeyword ofName ofLiteral)

/-- Lists of tokens with commas between them. -/
def commas : List (List Token) → List Token
  | [] => []
  | [ts] => ts
  | ts :: tss => ts ++ ofMark .comma :: commas tss

def Identifier.token (i : Identifier) : Token := ofName i.text i.escaped

@[simp] theorem Identifier.kind_token (i : Identifier) : i.token.kind = .identifier := rfl

def Identifier.bare (i : Identifier) : Identifier := { i with span := {} }

namespace JsonNode

def Scalar.kind : Scalar → Token.Kind
  | string => .string
  | integer => .integer
  | float => .float
  | true => .keyword .true
  | false => .keyword .false
  | null => .keyword .null

mutual

def tokens : JsonNode → List Token
  | object members _ => ofMark .leftBrace :: commas (memberTokens members) ++ [ofMark .rightBrace]
  | array elements _ =>
    ofMark .leftBracket :: commas (elementTokens elements) ++ [ofMark .rightBracket]
  | scalar kind text _ => [ofLiteral kind.kind text]

def memberTokens : List (Text × Span × JsonNode) → List (List Token)
  | [] => []
  | (key, _, value) :: members =>
    (ofLiteral .string key :: ofMark .colon :: tokens value) :: memberTokens members

def elementTokens : List JsonNode → List (List Token)
  | [] => []
  | value :: elements => tokens value :: elementTokens elements

end

mutual

def bare : JsonNode → JsonNode
  | object members _ => object (bareMembers members) {}
  | array elements _ => array (bareElements elements) {}
  | scalar kind text _ => scalar kind text {}

def bareMembers : List (Text × Span × JsonNode) → List (Text × Span × JsonNode)
  | [] => []
  | (key, _, value) :: members => (key, {}, bare value) :: bareMembers members

def bareElements : List JsonNode → List JsonNode
  | [] => []
  | value :: elements => bare value :: bareElements elements

end

/-- No more than the given number of values enclose another one, and words have no text. -/
def Within : Nat → JsonNode → Prop
  | _, scalar kind text _ => kind.kind.keepsText = Bool.false → text = []
  | 0, object members _ => members = []
  | 0, array elements _ => elements = []
  | levels + 1, object members _ => ∀ m ∈ members, Within levels m.2.2
  | levels + 1, array elements _ => ∀ v ∈ elements, Within levels v

/-- A member of an object, printed. -/
def memberToken (m : Text × Span × JsonNode) : List Token :=
  ofLiteral .string m.1 :: ofMark .colon :: m.2.2.tokens

def bareMember (m : Text × Span × JsonNode) : Text × Span × JsonNode := (m.1, {}, m.2.2.bare)

theorem memberTokens_eq_map (members : List (Text × Span × JsonNode)) :
    memberTokens members = members.map memberToken := by
  induction members with
  | nil => simp [memberTokens]
  | cons m members ih => simp [memberTokens, memberToken, ih]

theorem elementTokens_eq_map (elements : List JsonNode) :
    elementTokens elements = elements.map tokens := by
  induction elements with
  | nil => simp [elementTokens]
  | cons v elements ih => simp [elementTokens, ih]

theorem bareMembers_eq_map (members : List (Text × Span × JsonNode)) :
    bareMembers members = members.map bareMember := by
  induction members with
  | nil => simp [bareMembers]
  | cons m members ih => simp [bareMembers, bareMember, ih]

theorem bareElements_eq_map (elements : List JsonNode) :
    bareElements elements = elements.map bare := by
  induction elements with
  | nil => simp [bareElements]
  | cons v elements ih => simp [bareElements, ih]

end JsonNode

namespace Annotation

def tokens (a : Annotation) : List Token :=
  ofMark .at :: ofName a.name false :: ofMark .leftParen :: a.value.tokens ++ [ofMark .rightParen]

def bare (a : Annotation) : Annotation := { a with value := a.value.bare, span := {} }

def WellFormed (a : Annotation) : Prop := a.value.Within maxNesting

end Annotation

def TypeMark.bare (m : TypeMark) : TypeMark :=
  { m with annotations := m.annotations.map Annotation.bare, span := {} }

/-- The question mark of an optional type. -/
def TypeMark.question (m : TypeMark) : List Token :=
  if m.isOptional then [ofMark .question] else []

namespace TypeNode

def annotations (t : TypeNode) : List Annotation := t.mark.annotations

mutual

/-- The tokens of a type without its annotations. -/
def plainTokens : TypeNode → List Token
  | primitive k m => ofKeyword k :: m.question
  | decimal precision scale m =>
    ofKeyword .decimal :: ofMark .leftParen :: ofLiteral .integer precision ::
      (scale.toList.flatMap fun s => [ofMark .comma, ofLiteral .integer s]) ++
        ofMark .rightParen :: m.question
  | reference name m => name.token :: m.question
  | array items _ =>
    ofKeyword .array :: ofMark .lessThan :: (items.annotations.flatMap Annotation.tokens ++
      plainTokens items) ++ [ofMark .greaterThan]
  | map values _ =>
    ofKeyword .map :: ofMark .lessThan :: (values.annotations.flatMap Annotation.tokens ++
      plainTokens values) ++ [ofMark .greaterThan]
  | union branches _ =>
    ofKeyword .union :: ofMark .leftBrace :: commas (branchTokens branches) ++
      [ofMark .rightBrace]

def branchTokens : List TypeNode → List (List Token)
  | [] => []
  | t :: branches =>
    (t.annotations.flatMap Annotation.tokens ++ plainTokens t) :: branchTokens branches

end

def tokens (t : TypeNode) : List Token :=
  t.annotations.flatMap Annotation.tokens ++ t.plainTokens

mutual

def bare : TypeNode → TypeNode
  | primitive k m => primitive k m.bare
  | decimal precision scale m => decimal precision scale m.bare
  | reference name m => reference name.bare m.bare
  | array items m => array (bare items) m.bare
  | map values m => map (bare values) m.bare
  | union branches m => union (bareBranches branches) m.bare

def bareBranches : List TypeNode → List TypeNode
  | [] => []
  | t :: branches => bare t :: bareBranches branches

end

/-- No more than the given number of types enclose another one. Only types without parts may be
optional, a primitive type is the word for one, and a union has a branch. -/
def Within : Nat → TypeNode → Prop
  | _, primitive k m =>
    (∀ a ∈ m.annotations, a.WellFormed) ∧ k.isType = true ∧ k ≠ .decimal
  | _, decimal _ _ m | _, reference _ m => ∀ a ∈ m.annotations, a.WellFormed
  | 0, array _ _ | 0, map _ _ | 0, union _ _ => False
  | levels + 1, array part m | levels + 1, map part m =>
    (∀ a ∈ m.annotations, a.WellFormed) ∧ m.isOptional = false ∧ Within levels part
  | levels + 1, union branches m =>
    (∀ a ∈ m.annotations, a.WellFormed) ∧ m.isOptional = false ∧ branches ≠ [] ∧
      ∀ t ∈ branches, Within levels t

def WellFormed (t : TypeNode) : Prop := t.Within maxNesting

theorem branchTokens_eq_map (branches : List TypeNode) :
    branchTokens branches = branches.map tokens := by
  induction branches with
  | nil => simp [branchTokens]
  | cons t branches ih => simp [branchTokens, tokens, ih]

theorem bareBranches_eq_map (branches : List TypeNode) :
    bareBranches branches = branches.map bare := by
  induction branches with
  | nil => simp [bareBranches]
  | cons t branches ih => simp [bareBranches, ih]

end TypeNode

namespace Declarator

def tokens (d : Declarator) : List Token :=
  d.annotations.flatMap Annotation.tokens ++ d.name.token ::
    d.default.toList.flatMap fun v => ofMark .equals :: v.tokens

def bare (d : Declarator) : Declarator :=
  { doc := none, annotations := d.annotations.map Annotation.bare, name := d.name.bare
    default := d.default.map JsonNode.bare }

structure WellFormed (d : Declarator) : Prop where
  annotations : ∀ a ∈ d.annotations, a.WellFormed
  default : ∀ v ∈ d.default, v.Within maxNesting

end Declarator

namespace FieldDecl

def tokens (f : FieldDecl) : List Token :=
  f.type.tokens ++ commas (f.declarators.map Declarator.tokens) ++ [ofMark .semicolon]

def bare (f : FieldDecl) : FieldDecl :=
  { doc := none, type := f.type.bare, declarators := f.declarators.map Declarator.bare, span := {} }

structure WellFormed (f : FieldDecl) : Prop where
  type : f.type.WellFormed
  filled : f.declarators ≠ []
  declarators : ∀ d ∈ f.declarators, d.WellFormed

end FieldDecl

namespace RecordDecl

def tokens (d : RecordDecl) : List Token :=
  d.annotations.flatMap Annotation.tokens ++
    ofKeyword (if d.isError then .error else .record) :: d.name.token :: ofMark .leftBrace ::
      d.fields.flatMap FieldDecl.tokens ++ [ofMark .rightBrace]

def bare (d : RecordDecl) : RecordDecl :=
  { d with
    doc := none, annotations := d.annotations.map Annotation.bare, name := d.name.bare
    fields := d.fields.map FieldDecl.bare, span := {} }

structure WellFormed (d : RecordDecl) : Prop where
  annotations : ∀ a ∈ d.annotations, a.WellFormed
  fields : ∀ f ∈ d.fields, f.WellFormed

end RecordDecl

namespace EnumDecl

def tokens (d : EnumDecl) : List Token :=
  d.annotations.flatMap Annotation.tokens ++
    ofKeyword .enum :: d.name.token :: ofMark .leftBrace ::
      commas (d.symbols.map fun s => [s.token]) ++ ofMark .rightBrace ::
        d.default.toList.flatMap fun s => [ofMark .equals, s.token, ofMark .semicolon]

def bare (d : EnumDecl) : EnumDecl :=
  { doc := none, annotations := d.annotations.map Annotation.bare, name := d.name.bare
    symbols := d.symbols.map Identifier.bare, default := d.default.map Identifier.bare, span := {} }

def WellFormed (d : EnumDecl) : Prop := ∀ a ∈ d.annotations, a.WellFormed

end EnumDecl

namespace FixedDecl

def tokens (d : FixedDecl) : List Token :=
  d.annotations.flatMap Annotation.tokens ++
    [ofKeyword .fixed, d.name.token, ofMark .leftParen, ofLiteral .integer d.size,
      ofMark .rightParen, ofMark .semicolon]

def bare (d : FixedDecl) : FixedDecl :=
  { doc := none, annotations := d.annotations.map Annotation.bare, name := d.name.bare
    size := d.size, sizeSpan := {}, span := {} }

def WellFormed (d : FixedDecl) : Prop := ∀ a ∈ d.annotations, a.WellFormed

end FixedDecl

namespace Parameter

def tokens (p : Parameter) : List Token := p.type.tokens ++ p.declarator.tokens

def bare (p : Parameter) : Parameter := ⟨p.type.bare, p.declarator.bare⟩

structure WellFormed (p : Parameter) : Prop where
  type : p.type.WellFormed
  declarator : p.declarator.WellFormed

end Parameter

namespace ResultType

def tokens : ResultType → List Token
  | void _ => [ofKeyword .void]
  | value t => t.tokens

def bare : ResultType → ResultType
  | void _ => void {}
  | value t => value t.bare

/-- A result has no annotations of its own. -/
def WellFormed : ResultType → Prop
  | void _ => True
  | value t => t.annotations = [] ∧ t.WellFormed

end ResultType

namespace MessageDecl

def tokens (d : MessageDecl) : List Token :=
  d.annotations.flatMap Annotation.tokens ++ d.result.tokens ++
    d.name.token :: ofMark .leftParen :: commas (d.parameters.map Parameter.tokens) ++
      ofMark .rightParen :: (if d.isOneWay then [ofKeyword .oneway] else []) ++
        (d.errors.toList.flatMap fun es =>
          ofKeyword .throws :: commas (es.map fun e => [e.token])) ++ [ofMark .semicolon]

def bare (d : MessageDecl) : MessageDecl :=
  { doc := none, annotations := d.annotations.map Annotation.bare, result := d.result.bare
    name := d.name.bare, parameters := d.parameters.map Parameter.bare, isOneWay := d.isOneWay
    errors := d.errors.map fun es => es.map Identifier.bare, span := {} }

/-- A message without a reply declares no errors, and one that declares errors names one. -/
structure WellFormed (d : MessageDecl) : Prop where
  annotations : ∀ a ∈ d.annotations, a.WellFormed
  result : d.result.WellFormed
  parameters : ∀ p ∈ d.parameters, p.WellFormed
  oneWay : d.isOneWay = true → d.errors = none
  errors : d.errors ≠ some []

end MessageDecl

def ImportKind.keyword : ImportKind → Keyword
  | idl => .idl
  | protocol => .protocol
  | schema => .schema

def ImportDecl.tokens (d : ImportDecl) : List Token :=
  [ofKeyword .importFrom, ofKeyword d.kind.keyword, ofLiteral .string d.location,
    ofMark .semicolon]

def ImportDecl.bare (d : ImportDecl) : ImportDecl := { d with span := {} }

namespace Declaration

def tokens : Declaration → List Token
  | file d => d.tokens
  | record d => d.tokens
  | enum d => d.tokens
  | fixed d => d.tokens
  | message d => d.tokens

def bare : Declaration → Declaration
  | file d => file d.bare
  | record d => record d.bare
  | enum d => enum d.bare
  | fixed d => fixed d.bare
  | message d => message d.bare

def WellFormed : Declaration → Prop
  | file _ => True
  | record d => d.WellFormed
  | enum d => d.WellFormed
  | fixed d => d.WellFormed
  | message d => d.WellFormed

def isMessage : Declaration → Bool
  | message _ => true
  | _ => false

end Declaration

namespace ProtocolDecl

def tokens (d : ProtocolDecl) : List Token :=
  d.annotations.flatMap Annotation.tokens ++
    ofKeyword .protocol :: d.name.token :: ofMark .leftBrace ::
      d.body.flatMap Declaration.tokens ++ [ofMark .rightBrace]

def bare (d : ProtocolDecl) : ProtocolDecl :=
  { doc := none, annotations := d.annotations.map Annotation.bare, name := d.name.bare
    body := d.body.map Declaration.bare, span := {} }

structure WellFormed (d : ProtocolDecl) : Prop where
  annotations : ∀ a ∈ d.annotations, a.WellFormed
  body : ∀ x ∈ d.body, x.WellFormed

end ProtocolDecl

namespace SourceUnit

namespace Body

def tokens : Body → List Token
  | protocol d => d.tokens
  | schemas space main declarations =>
    (space.toList.flatMap fun s => [ofKeyword .nameSpace, s.token, ofMark .semicolon]) ++
      (main.toList.flatMap fun t => ofKeyword .schema :: t.tokens ++ [ofMark .semicolon]) ++
        declarations.flatMap Declaration.tokens

def bare : Body → Body
  | protocol d => protocol d.bare
  | schemas space main declarations =>
    schemas (space.map Identifier.bare) (main.map TypeNode.bare) (declarations.map Declaration.bare)

/-- Only a protocol has messages. -/
def WellFormed : Body → Prop
  | protocol d => d.WellFormed
  | schemas _ main declarations =>
    (∀ t ∈ main, t.WellFormed) ∧ ∀ x ∈ declarations, x.WellFormed ∧ x.isMessage = false

end Body

/-- The tokens of a source, with the end of the file after them. -/
def tokens (u : SourceUnit) : List Token := u.body.tokens ++ [ofLiteral .endOfFile []]

/-- What a source says, without places, documentation and comments that document nothing. -/
def bare (u : SourceUnit) : SourceUnit := { body := u.body.bare }

def WellFormed (u : SourceUnit) : Prop := u.body.WellFormed

end SourceUnit

end AvroIdl
