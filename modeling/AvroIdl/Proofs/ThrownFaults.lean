import AvroIdl.Proofs.CollectedAnnotations
import AvroIdl.Proofs.Reporting

/-!
# What is thrown on the way

Two libraries throw what nothing catches: the printer at a text that is not valid UTF-8, and the
reader of documents at a number that is out of range. In declarations only the first one can, in the
message about an order that is no word, and this field or parameter is then the one that throws: all
before it in its record or message can be built.
-/
namespace AvroIdl

/-- Computing has ended with something that was thrown. -/
def Throws {α : Type} (x : Except Diagnostic α) : Prop := ∃ d, x = .error d ∧ d.isFault = true

def Succeeds {α : Type} (x : Except Diagnostic α) : Prop := ∃ a, x = .ok a

section Except

variable {α β : Type} {x : Except Diagnostic α}

@[simp]
theorem throws_error {d : Diagnostic} :
    Throws (.error d : Except Diagnostic α) ↔ d.isFault = true := by
  simp [Throws]

@[simp]
theorem not_throws_ok {a : α} : ¬Throws (.ok a) := by
  simp [Throws]

@[simp]
theorem succeeds_ok {a : α} : Succeeds (.ok a) := ⟨a, rfl⟩

@[simp]
theorem not_succeeds_error {d : Diagnostic} : ¬Succeeds (.error d : Except Diagnostic α) := by
  simp [Succeeds]

theorem throws_bind_iff {f : α → Except Diagnostic β} :
    Throws (x >>= f) ↔ Throws x ∨ ∃ a, x = .ok a ∧ Throws (f a) := by
  cases x with
  | ok a => simp [bind, Except.bind]
  | error d => simp [bind, Except.bind]

theorem succeeds_bind_iff {f : α → Except Diagnostic β} :
    Succeeds (x >>= f) ↔ ∃ a, x = .ok a ∧ Succeeds (f a) := by
  cases x with
  | ok a => simp [bind, Except.bind]
  | error d => simp [bind, Except.bind]

@[simp]
theorem throws_map_iff {f : α → β} : Throws (x.map f) ↔ Throws x := by
  cases x <;> simp [Except.map]

@[simp]
theorem succeeds_map_iff {f : α → β} : Succeeds (x.map f) ↔ Succeeds x := by
  cases x <;> simp [Except.map]

theorem RefusesOnly.not_throws (h : RefusesOnly (fun d => d.isFault = false) x) : ¬Throws x := by
  rintro ⟨d, hd, hfault⟩
  rw [h d hd] at hfault
  cases hfault

end Except

/-- A list is split at one of its members: at the first one, or at one behind it. -/
theorem exists_split_cons_iff {α : Type} {P : List α → α → Prop} {a : α} {as : List α} :
    (∃ before x after, a :: as = before ++ x :: after ∧ P before x) ↔
      P [] a ∨ ∃ before x after, as = before ++ x :: after ∧ P (a :: before) x := by
  constructor
  · rintro ⟨before, x, after, hsplit, h⟩
    cases before with
    | nil =>
      obtain ⟨rfl, rfl⟩ := List.cons_eq_cons.mp hsplit
      exact .inl h
    | cons b before =>
      obtain ⟨rfl, rfl⟩ := List.cons_eq_cons.mp hsplit
      exact .inr ⟨before, x, after, rfl, h⟩
  · rintro (h | ⟨before, x, after, rfl, h⟩)
    · exact ⟨[], a, as, rfl, h⟩
    · exact ⟨a :: before, x, after, rfl, h⟩

namespace Report

variable {α β : Type}

/-- What a computation gives if nothing has been warned of yet. -/
def result (x : Report α) : Except Diagnostic α := (x.run []).1

theorem result_pure (a : α) : result (pure a) = .ok a := rfl

theorem result_ofExcept (x : Except Diagnostic α) : (ofExcept x).result = x := by
  cases x <;> rfl

theorem Tells.run_eq {x : Report α} (h : x.Tells) (w : List Diagnostic) :
    (x.run w).1 = x.result :=
  h.steady w []

/-- Warnings may be left out along the way. -/
theorem result_bind {x : Report α} {f : α → Report β} (hf : ∀ a, (f a).Tells) :
    result (x >>= f) = x.result >>= fun a => (f a).result := by
  unfold result
  rcases hr : x.run [] with ⟨result, w⟩
  cases result with
  | ok a =>
    rw [bind_run_of_ok hr]
    exact (hf a).run_eq w
  | error d =>
    rw [bind_run_of_error hr]
    rfl

theorem TellsOnly.refusesOnly {E : Diagnostic → Prop} {x : Report α} (h : TellsOnly E x) :
    RefusesOnly E x.result := by
  intro d hd
  exact h.stops (Prod.ext hd rfl)

end Report

/-- A declaration of fields with only some of its declarators. -/
def FieldDecl.declaring (f : FieldDecl) (declarators : List Declarator) : FieldDecl :=
  { f with declarators := declarators }

namespace Build

open Report

theorem permitsDefaults_caught : PermitsDefaults fun d => d.isFault = false where
  literal p _ _ := by cases p <;> rfl
  problem _ _ _ h := by simpa [Diagnostic.isFault, Problem.diagnostic] using h.2.2
  default _ _ _ h := by simp [Diagnostic.isFault, Problem.diagnostic, h]

theorem admits_caught : Admits fun d => d.isFault = false where
  toPermits := permitsDefaults_caught.toPermits
  guard p _ _ h := by
    rcases h.cases with rfl | ⟨k, rfl⟩ <;> rfl

theorem PermitsDefaults.mono {E E' : Diagnostic → Prop} (h : PermitsDefaults E)
    (hE : ∀ d, E d → E' d) : PermitsDefaults E' where
  literal p file span := hE _ (h.literal p file span)
  problem p file span hp := hE _ (h.problem p file span hp)
  default p file span hp := hE _ (h.default p file span hp)

/-! ### Fields and parameters -/

/-- The annotations of fields and parameters that have a meaning of their own. -/
def memberTargets : Targets := { aliases := true, order := true }

section Members

variable {c : Context} {owner : Text}

theorem throws_fieldOf_iff {type : TypeNode} {doc : Option Text} {d : Declarator} :
    Throws (fieldOf c owner type doc d).result ↔ BreaksOff memberTargets d.annotations := by
  constructor
  · rintro ⟨e, he, hfault⟩
    -- whatever stops a field is either told, or its annotations throw
    let E (e : Diagnostic) : Prop := e.isFault = false ∨ BreaksOff memberTargets d.annotations
    have hE : PermitsDefaults E := permitsDefaults_caught.mono fun _ => .inl
    have htype : Guarded E 0 type :=
      .inl fun p file span h => .inl (admits_caught.guard p file span h)
    have hcollect : RefusesOnly E (AnnotationSet.collect c.file memberTargets d.annotations) := by
      intro e he
      cases hfault : e.isFault with
      | false => exact .inl hfault
      | true => exact .inr ((isFault_collect_iff c.file).mp ⟨e, he, hfault⟩)
    rcases (hE.fieldOf c owner doc d htype hcollect).refusesOnly e he with htold | hbreaks
    · rw [htold] at hfault
      cases hfault
    · exact hbreaks
  · intro h
    obtain ⟨e, he, hfault⟩ := (isFault_collect_iff c.file).mpr h
    refine ⟨e, ?_, hfault⟩
    unfold fieldOf
    rw [show AnnotationSet.collect c.file { aliases := true, order := true } d.annotations =
      .error e from he]
    rfl

/-- Members are taken one after the other, and each may be a duplicate of one before. What is thrown
is then thrown by one of them, and those before it have all been taken. -/
theorem throws_members_iff {α : Type} (members : List Text → List α → Report (List Field))
    (one : α → Report Field) (duplicate : Text → α → Diagnostic)
    (hnil : ∀ seen, (members seen []).result = .ok [])
    (hcons : ∀ seen x xs, (members seen (x :: xs)).result = (one x).result >>= fun field =>
      if seen.contains field.name then .error (duplicate field.name x)
      else (members (field.name :: seen) xs).result.map (field :: ·))
    (hcaught : ∀ name x, (duplicate name x).isFault = false) (seen : List Text) (xs : List α) :
    Throws (members seen xs).result ↔ ∃ before x after, xs = before ++ x :: after ∧
      Succeeds (members seen before).result ∧ Throws (one x).result := by
  have hthrows (seen : List Text) (x : α) (xs : List α) :
      Throws (members seen (x :: xs)).result ↔ Throws (one x).result ∨
        ∃ field, (one x).result = .ok field ∧ seen.contains field.name = false ∧
          Throws (members (field.name :: seen) xs).result := by
    rw [hcons, throws_bind_iff]
    refine or_congr_right (exists_congr fun field => and_congr_right fun _ => ?_)
    split <;> simp_all
  have hsucceeds (seen : List Text) (x : α) (xs : List α) :
      Succeeds (members seen (x :: xs)).result ↔
        ∃ field, (one x).result = .ok field ∧ seen.contains field.name = false ∧
          Succeeds (members (field.name :: seen) xs).result := by
    rw [hcons, succeeds_bind_iff]
    refine exists_congr fun field => and_congr_right fun _ => ?_
    split <;> simp_all
  induction xs generalizing seen with
  | nil => simp [hnil]
  | cons x xs ih =>
    rw [hthrows, exists_split_cons_iff
      (P := fun before x => Succeeds (members seen before).result ∧ Throws (one x).result)]
    simp only [hnil, succeeds_ok, true_and, hsucceeds, ih]
    refine or_congr_right ⟨?_, ?_⟩
    · rintro ⟨field, hfield, hnew, before, y, after, rfl, hbefore, hy⟩
      exact ⟨before, y, after, rfl, ⟨field, hfield, hnew, hbefore⟩, hy⟩
    · rintro ⟨before, y, after, rfl, ⟨field, hfield, hnew, hbefore⟩, hy⟩
      exact ⟨field, hfield, hnew, before, y, after, rfl, hbefore, hy⟩

theorem isFault_of_kind_ne {p : Problem} (h : p.kind ≠ .fault) (file : Text) (span : Span) :
    (p.diagnostic file span).isFault = false := by
  simpa [Diagnostic.isFault, Problem.diagnostic] using h

/-- A member is computed, must not be a duplicate, and goes before the rest. -/
theorem result_member {seen : List Text} {x : Report Field} {p : Field → Problem} {span : Span}
    {rest : Field → Report (List Field)} (hrest : ∀ field, (rest field).Tells) :
    (x >>= fun field =>
      if seen.contains field.name then stop c (p field) span
      else (rest field >>= fun fields => pure (field :: fields))).result =
        x.result >>= fun field =>
          if seen.contains field.name then .error ((p field).diagnostic c.file span)
          else (rest field).result.map (field :: ·) := by
  have htells (field : Field) :
      (rest field >>= fun fields => pure (field :: fields)).Tells :=
    TellsOnly.bind (hrest field) fun _ => tellsOnly_pure _
  rw [result_bind fun field => by
    split
    · exact tells_stop c _ _
    · exact htells field]
  congr 1
  funext field
  split
  · rfl
  · rw [result_bind fun _ => tellsOnly_pure _]
    rfl

theorem tells_declaratorFields (f : FieldDecl) (seen : List Text) (ds : List Declarator) :
    (declaratorFields c owner f seen ds).Tells :=
  permitsFields_isError.declaratorFields c owner (guarded_isError 0 f.type) seen ds

theorem tells_parametersOf (seen : List Text) (ps : List Parameter) :
    (parametersOf c owner seen ps).Tells :=
  permitsFields_isError.parametersOf c owner seen fun p _ => guarded_isError 0 p.type

theorem tells_recordFields (seen : List Text) (fs : List FieldDecl) :
    (recordFields c owner seen fs).Tells :=
  permitsFields_isError.recordFields c owner seen fun f _ => guarded_isError 0 f.type

theorem throws_declaratorFields_iff {f : FieldDecl} {seen : List Text} {ds : List Declarator} :
    Throws (declaratorFields c owner f seen ds).result ↔
      ∃ earlier x later, ds = earlier ++ x :: later ∧
        Succeeds (declaratorFields c owner f seen earlier).result ∧
        BreaksOff memberTargets x.annotations := by
  rw [throws_members_iff (declaratorFields c owner f) (fieldOf c owner f.type f.doc)
    (fun name d => (Problem.duplicateField name owner).diagnostic c.file d.name.span)
    (fun _ => rfl) (fun seen d ds => result_member fun field => tells_declaratorFields f _ ds)
    fun _ _ => isFault_of_kind_ne (by simp [Problem.kind]) _ _]
  simp only [throws_fieldOf_iff]

theorem throws_parametersOf_iff {seen : List Text} {ps : List Parameter} :
    Throws (parametersOf c owner seen ps).result ↔
      ∃ before p after, ps = before ++ p :: after ∧
        Succeeds (parametersOf c owner seen before).result ∧
        BreaksOff memberTargets p.declarator.annotations := by
  rw [throws_members_iff (parametersOf c owner) (fun p => fieldOf c owner p.type none p.declarator)
    (fun name p =>
      (Problem.duplicateParameter name owner).diagnostic c.file p.declarator.name.span)
    (fun _ => rfl) (fun seen p ps => result_member fun field => tells_parametersOf _ ps)
    fun _ _ => isFault_of_kind_ne (by simp [Problem.kind]) _ _]
  simp only [throws_fieldOf_iff]

/-- The declarators of a field declaration matter to its fields only in that they are taken. -/
theorem declaratorFields_declaring (f : FieldDecl) (declarators : List Declarator)
    (seen : List Text) (ds : List Declarator) :
    declaratorFields c owner (f.declaring declarators) seen ds =
      declaratorFields c owner f seen ds := by
  induction ds generalizing seen with
  | nil => rfl
  | cons d ds ih =>
    simp only [declaratorFields, ih]
    rfl

theorem result_recordFields_cons (f : FieldDecl) (seen : List Text) (fs : List FieldDecl) :
    (recordFields c owner seen (f :: fs)).result =
      (declaratorFields c owner f seen f.declarators).result >>= fun fields =>
        (recordFields c owner (fields.map (·.name) ++ seen) fs).result.map (fields ++ ·) := by
  rw [recordFields, result_bind fun fields => TellsOnly.bind (tells_recordFields _ fs) fun _ =>
    tellsOnly_pure _]
  congr 1
  funext fields
  rw [result_bind fun _ => tellsOnly_pure _]
  rfl

/-- The fields of a record throw at a declarator up to which they can be built. -/
theorem throws_recordFields_iff {seen : List Text} {fs : List FieldDecl} :
    Throws (recordFields c owner seen fs).result ↔
      ∃ before f after, fs = before ++ f :: after ∧
        ∃ earlier x later, f.declarators = earlier ++ x :: later ∧
          Succeeds (recordFields c owner seen (before ++ [f.declaring earlier])).result ∧
          BreaksOff memberTargets x.annotations := by
  have hsucceeds (seen : List Text) (f : FieldDecl) (fs : List FieldDecl) :
      Succeeds (recordFields c owner seen (f :: fs)).result ↔
        ∃ fields, (declaratorFields c owner f seen f.declarators).result = .ok fields ∧
          Succeeds (recordFields c owner (fields.map (·.name) ++ seen) fs).result := by
    rw [result_recordFields_cons, succeeds_bind_iff]
    simp
  induction fs generalizing seen with
  | nil => simp [recordFields, result_pure]
  | cons f fs ih =>
    have hnil (seen : List Text) : Succeeds (recordFields c owner seen []).result := ⟨[], rfl⟩
    rw [result_recordFields_cons, throws_bind_iff, exists_split_cons_iff
      (P := fun before (f : FieldDecl) => ∃ (earlier : List Declarator) (x : Declarator),
        ∃ later, f.declarators = earlier ++ x :: later ∧
        Succeeds (recordFields c owner seen (before ++ [f.declaring earlier])).result ∧
        BreaksOff memberTargets x.annotations)]
    simp only [throws_declaratorFields_iff, List.nil_append, List.cons_append, hsucceeds,
      throws_map_iff, ih, declaratorFields_declaring, hnil, and_true]
    refine or_congr Iff.rfl ⟨?_, ?_⟩
    · rintro ⟨fields, hfields, before, g, after, rfl, earlier, x, later, hsplit, hbefore, hx⟩
      exact ⟨before, g, after, rfl, earlier, x, later, hsplit, ⟨fields, hfields, hbefore⟩, hx⟩
    · rintro ⟨before, g, after, rfl, earlier, x, later, hsplit, ⟨fields, hfields, hbefore⟩, hx⟩
      exact ⟨fields, hfields, before, g, after, rfl, earlier, x, later, hsplit, hbefore, hx⟩

end Members

/-- A field or parameter of the declaration has an order that cannot be shown, and the declaration
can be built as far as it stands before. -/
inductive Unshown (c : Context) : Declaration → Prop
  | field {d : RecordDecl} {before after : List FieldDecl} {f : FieldDecl}
    {earlier later : List Declarator} {x : Declarator} (fields : d.fields = before ++ f :: after)
    (declarators : f.declarators = earlier ++ x :: later)
    (built : Succeeds (recordOf c { d with fields := before ++ [f.declaring earlier] }).result)
    (breaks : BreaksOff memberTargets x.annotations) : Unshown c (.record d)
  | parameter {d : MessageDecl} {before after : List Parameter} {p : Parameter}
    (parameters : d.parameters = before ++ p :: after)
    (built : Succeeds (messageOf c { d with parameters := before }).result)
    (breaks : BreaksOff memberTargets p.declarator.annotations) : Unshown c (.message d)

section Declarations

variable {c : Context}

/-- A record consists of its head and, in the scope of its name, its fields. -/
theorem result_recordOf (d : RecordDecl) (fs : List FieldDecl) :
    (recordOf c { d with fields := fs }).result =
      headOf c d.name d.doc d.annotations >>= fun p =>
        let owner : Text := (if d.isError then "error '" else "record '") ++ p.1.full ++ "'"
        (recordFields { c with scope := c.scope.enter p.1.space } owner [] fs).result.map
          (.record p.2 d.isError) := by
  unfold recordOf
  rw [result_bind fun p => TellsOnly.bind (tells_recordFields _ _) fun _ => tellsOnly_pure _,
    result_ofExcept]
  congr 1
  funext p
  rw [result_bind fun _ => tellsOnly_pure _]
  rfl

theorem throws_recordOf_iff {d : RecordDecl} :
    Throws (recordOf c d).result ↔ Unshown c (.record d) := by
  have hhead := (permitsDefaults_caught.headOf c d.name d.doc d.annotations).not_throws
  rw [show recordOf c d = recordOf c { d with fields := d.fields } from rfl, result_recordOf,
    throws_bind_iff]
  simp only [hhead, false_or, throws_map_iff, throws_recordFields_iff]
  constructor
  · rintro ⟨p, hp, before, f, after, hfields, earlier, x, later, hsplit, hbuilt, hbreaks⟩
    refine .field hfields hsplit ?_ hbreaks
    rw [result_recordOf, succeeds_bind_iff]
    exact ⟨p, hp, succeeds_map_iff.mpr hbuilt⟩
  · intro h
    cases h with
    | field hfields hsplit hbuilt hbreaks =>
      rw [result_recordOf, succeeds_bind_iff] at hbuilt
      obtain ⟨p, hp, hbuilt⟩ := hbuilt
      exact ⟨p, hp, _, _, _, hfields, _, _, _, hsplit, succeeds_map_iff.mp hbuilt, hbreaks⟩

/-- What a message has before its parameters. -/
def leadOf (c : Context) (d : MessageDecl) : Except Diagnostic (AnnotationSet × Schema) := do
  let set ← AnnotationSet.collect c.file {} d.annotations
  if !Name.isValid d.name.text then
    .error ((Problem.illegalMessage d.name.text).diagnostic c.file d.name.span)
  else
    let response ← (responseOf c d.name.text d.isOneWay d.result).result
    return (set, response)

theorem result_messageOf (d : MessageDecl) (ps : List Parameter) :
    (messageOf c { d with parameters := ps }).result = leadOf c d >>= fun p =>
      (parametersOf c ("message '" ++ d.name.text ++ "'") [] ps).result.map fun request =>
        { name := d.name.text, doc := d.doc, properties := p.1.properties, request := request
          response := p.2, errors := d.errors.map fun es => es.map (referenceTo c)
          isOneWay := d.isOneWay, span := some d.name.span } := by
  have hrequest (m : List Field → Message) :
      (parametersOf c ("message '" ++ d.name.text ++ "'") [] ps >>= fun request =>
        pure (m request) : Report Message).Tells :=
    TellsOnly.bind (tells_parametersOf _ _) fun _ => tellsOnly_pure _
  have hresponse : (responseOf c d.name.text d.isOneWay d.result).Tells :=
    permitsFields_isError.responseOf c _ _ fun t _ => guarded_isError 0 t
  unfold messageOf leadOf
  rw [result_bind fun set => by
    dsimp only
    split
    · exact tells_stop c _ _
    · exact TellsOnly.bind hresponse fun _ => hrequest _, result_ofExcept, bind_assoc]
  congr 1
  funext set
  dsimp only
  split
  · rfl
  · rw [result_bind fun _ => hrequest _, bind_assoc]
    congr 1
    funext response
    rw [result_bind fun _ => tellsOnly_pure _]
    rfl

theorem not_throws_leadOf (d : MessageDecl) : ¬Throws (leadOf c d) := by
  have hcollect := permitsDefaults_caught.collect c.file {} d.annotations (by simp)
  have hresponse : TellsOnly _ (responseOf c d.name.text d.isOneWay d.result) :=
    permitsDefaults_caught.responseOf c _ _ fun t _ => .inl admits_caught.guard
  refine RefusesOnly.not_throws (hcollect.bind fun set => ?_)
  split
  · exact refusesOnly_error (isFault_of_kind_ne (by simp [Problem.kind]) _ _)
  · exact hresponse.refusesOnly.bind fun _ => refusesOnly_ok _

theorem throws_messageOf_iff {d : MessageDecl} :
    Throws (messageOf c d).result ↔ Unshown c (.message d) := by
  rw [show messageOf c d = messageOf c { d with parameters := d.parameters } from rfl,
    result_messageOf, throws_bind_iff]
  simp only [not_throws_leadOf, false_or, throws_map_iff, throws_parametersOf_iff]
  constructor
  · rintro ⟨p, hp, before, x, after, hparameters, hbuilt, hbreaks⟩
    refine .parameter hparameters ?_ hbreaks
    rw [result_messageOf, succeeds_bind_iff]
    exact ⟨p, hp, succeeds_map_iff.mpr hbuilt⟩
  · intro h
    cases h with
    | parameter hparameters hbuilt hbreaks =>
      rw [result_messageOf, succeeds_bind_iff] at hbuilt
      obtain ⟨p, hp, hbuilt⟩ := hbuilt
      exact ⟨p, hp, _, _, _, hparameters, succeeds_map_iff.mp hbuilt, hbreaks⟩

end Declarations

end Build

end AvroIdl
