import AvroIdl.Proofs.SpelledUnit

/-!
# The reader and the grammar

The reader accepts what is printed for well-formed sources and nothing else, and gives what was
printed.
-/
namespace AvroIdl

open Token (ofLiteral)

namespace SourceUnit

/-- Whatever the places and comments of its tokens are, the printed source is read without a
problem and says the same. -/
def ReadsBack (u : SourceUnit) : Prop :=
  ∀ ts docs, List.Forall₂ Token.Matches u.tokens ts →
    (ofTokens ts docs).2 = none ∧ (ofTokens ts docs).1.bare = u.bare

theorem matches_refl (ts : List Token) : List.Forall₂ Token.Matches ts ts :=
  List.forall₂_same.mpr fun _ _ => ⟨rfl, fun _ => ⟨rfl, rfl⟩⟩

/-- A well-formed source reads back from its printed tokens. And if tokens that end with the only
end of the file are read without a problem, the source is well formed and they are the tokens that
are printed for it, in kind and in the text it keeps, except that a name may be a keyword. -/
theorem ofTokens_exact :
    (∀ u : SourceUnit, u.WellFormed → u.ReadsBack) ∧
      ∀ (front : List Token) (last : Token) (docs : List DocComment) (u : SourceUnit),
        last.kind = .endOfFile → (∀ t ∈ front, t.kind ≠ .endOfFile) →
        ofTokens (front ++ [last]) docs = (u, none) →
        u.WellFormed ∧ List.Forall₂ Token.Fits u.tokens (front ++ [last]) := by
  refine ⟨?_, ?_⟩
  · intro u hu ts docs hts
    exact ofTokens_of_matches hu docs hts
  · intro front last docs u hlast hfront h
    exact fits_of_ofTokens hlast hfront h

/-- A protocol with an annotation, a recursive record, and a message with errors. -/
def storeSource : SourceUnit :=
  { body := .protocol
      { doc := none
        annotations := [⟨"namespace", .scalar .string "\"store\"" {}, {}⟩]
        name := { text := "Store" }
        body :=
          [.record ⟨none, [], false, { text := "Item" },
            [⟨none, .array (.union [.primitive .null {}, .reference { text := "Item" } {}] {}) {},
              [{ name := { text := "next" }, default := some (.array [] {}) }], {}⟩], {}⟩,
          .message
            { doc := none
              annotations := []
              result := .value (.reference { text := "Item" } { isOptional := true })
              name := { text := "get" }
              parameters := [⟨.primitive .string {}, { name := { text := "key" } }⟩]
              isOneWay := false
              errors := some [{ text := "Lost" }]
              span := {} }]
        span := {} } }

theorem storeSource_wellFormed : storeSource.WellFormed := by
  have hplain : ∀ a ∈ ([] : List Annotation), a.WellFormed := by simp
  have hnext : TypeNode.WellFormed
      (.array (.union [.primitive .null {}, .reference { text := "Item" } {}] {}) {}) := by
    refine ⟨hplain, rfl, hplain, rfl, by simp, ?_⟩
    refine List.forall_mem_cons.mpr ⟨?_, List.forall_mem_singleton.mpr ?_⟩
    · exact ⟨hplain, rfl, by simp⟩
    · exact hplain
  refine ⟨List.forall_mem_singleton.mpr (fun h => by cases h), ?_⟩
  refine List.forall_mem_cons.mpr ⟨⟨hplain, ?_⟩, List.forall_mem_singleton.mpr ?_⟩
  · refine List.forall_mem_singleton.mpr ⟨hnext, by simp, List.forall_mem_singleton.mpr ?_⟩
    exact ⟨hplain, by simp [JsonNode.Within, maxNesting]⟩
  · refine ⟨hplain, ⟨rfl, hplain⟩, List.forall_mem_singleton.mpr ⟨?_, hplain, by simp⟩, by simp, ?_⟩
    · exact ⟨hplain, rfl, by simp⟩
    · simp

theorem storeSource_exact :
    storeSource.ReadsBack ∧
      ∃ u, ofTokens storeSource.tokens [] = (u, none) ∧ u.WellFormed ∧
        List.Forall₂ Token.Fits u.tokens storeSource.tokens := by
  have hback := ofTokens_exact.1 storeSource storeSource_wellFormed
  obtain ⟨hnone, -⟩ := hback storeSource.tokens [] (matches_refl _)
  have hread : ofTokens storeSource.tokens [] = ((ofTokens storeSource.tokens []).1, none) :=
    Prod.ext rfl hnone
  refine ⟨hback, _, hread, ?_⟩
  exact ofTokens_exact.2 storeSource.body.tokens (ofLiteral .endOfFile []) [] _ rfl
    (by decide +kernel) hread

/-- A message without parameters and reply. -/
def ping (isOneWay : Bool) (errors : Option (List Identifier)) : Declaration :=
  .message
    { doc := none, annotations := [], result := .void {}, name := { text := "ping" }
      parameters := [], isOneWay := isOneWay, errors := errors, span := {} }

/-- A record with one declaration of fields. -/
def point (type : TypeNode) (declarators : List Declarator) : Declaration :=
  .record ⟨none, [], false, { text := "Point" }, [⟨none, type, declarators, {}⟩], {}⟩

def protocolOf (d : Declaration) : SourceUnit :=
  { body := .protocol ⟨none, [], { text := "P" }, [d], {}⟩ }

theorem not_readsBack {u : SourceUnit}
    (h : (ofTokens u.tokens []).2 = none → (ofTokens u.tokens []).1.bare ≠ u.bare) :
    ¬u.ReadsBack :=
  fun hu => h (hu u.tokens [] (matches_refl _)).1 (hu u.tokens [] (matches_refl _)).2

/-- What the grammar cannot say, beyond optional types with parts, empty unions, annotated results
and deep nesting: errors of a message without a reply, a list of errors or of fields without any, a
message outside a protocol, types that are no words for one, and text of a JSON word. -/
theorem not_readsBack_beyond_grammar :
    ¬(protocolOf (ping true (some [{ text := "Lost" }]))).ReadsBack ∧
      ¬(protocolOf (ping false (some []))).ReadsBack ∧
      ¬(protocolOf (point (.primitive .int {}) [])).ReadsBack ∧
      ¬({ body := .schemas none none [ping false none] } : SourceUnit).ReadsBack ∧
      ¬(protocolOf (point (.primitive .void {}) [{ name := { text := "x" } }])).ReadsBack ∧
      ¬(protocolOf (point (.primitive .decimal {}) [{ name := { text := "x" } }])).ReadsBack ∧
      ¬(protocolOf (point (.primitive .int {})
        [{ name := { text := "x" }, default := some (.scalar .null "0" {}) }])).ReadsBack := by
  refine ⟨?_, ?_, ?_, ?_, ?_, ?_, ?_⟩
  all_goals refine not_readsBack fun h hbare => ?_
  · exact absurd h (by decide)
  · exact absurd h (by decide)
  · exact absurd h (by decide)
  · exact absurd h (by decide)
  · exact absurd h (by decide)
  · exact absurd h (by decide)
  · cases hbare

end SourceUnit

end AvroIdl
