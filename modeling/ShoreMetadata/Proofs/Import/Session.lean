import ShoreMetadata.Proofs.Import.Build

/-! Sessions do not depend on what was done with them. The builders of a session are told here once
more as actions on it, which push the problems that they come across to its list and leave it as it
is then when they fail; a call of a session does what these actions do. -/

namespace ShoreMetadata

open Xml (Element)

/-- Something that is done with a session. It may fail, and what it did before then stays. -/
abbrev Session.Action (α : Type) :=
  ExceptT Error (StateM Session) α

namespace Session.Action

variable {α β : Type} {k : Kind}

def perform (act : Action α) (session : Session) : Session × Except Error α :=
  let outcome := (act.run.run session).run
  (outcome.2, outcome.1)

def configuration : Action Config := do
  return (← get).config

def note (problem : Problem) : Action Unit :=
  modify fun session => { session with problems := session.problems ++ [problem] }

def passOver (e : Error) (problem : Problem) (a : α) : Action α := do
  if (← configuration).isStrict then throw e
  else
    note problem
    return a

def adopt (place : Place) (e : Entity k) (child : Child) : Action (Entity k) :=
  match e.adopt? child with
  | some e => return e
  | none =>
    passOver (.unroutable child.tag place.tag place.line)
      (.unroutable child.tag place.tag place.line child.entity.kind) e

def adoptAll (place : Place) (e : Entity k) : List Child → Action (Entity k)
  | [] => return e
  | child :: rest => do
    let e ← adopt place e child
    adoptAll place e rest

def unknownElement (place : Place) : Action (Option AnyEntity) :=
  passOver (.unknownElement place.tag place.line) (.unknownElement place.tag place.line) none

mutual
def buildElement : Element → Action (Option AnyEntity)
  | ⟨name, attributes, children, _, position⟩ => do
    let place : Place := ⟨name, position.line⟩
    match Role.ofTag? name with
    | some (.entity k) =>
      let config ← configuration
      let e ← liftExcept ((Entity.ofTag k name).readAttributes config place attributes)
      let offspring ← buildChildren children
      let e ← adoptAll place (e.describe offspring.description) offspring.children
      return some ⟨k, e⟩
    | some (.wrapper w) => buildContent w.contentTags children
    | some .description => return none
    | none => unknownElement place

def buildContent (tags : List String) : List Element → Action (Option AnyEntity)
  | [] => return none
  | child :: rest =>
    if child.hasTagIn tags then buildElement child else buildContent tags rest

def buildChildren : List Element → Action Offspring
  | [] => return ⟨none, []⟩
  | child :: rest => do
    if child.hasTag descriptionTag then
      let offspring ← buildChildren rest
      return { offspring with description := offspring.description.or child.textContent }
    else
      let built ← buildElement child
      let offspring ← buildChildren rest
      match built with
      | some entity =>
        return { offspring with children := ⟨child.name, entity⟩ :: offspring.children }
      | none => return offspring
end

def buildKind (k : Kind) (element : Element) : Action AnyEntity := do
  if element.hasTagIn k.acceptedTags then
    match ← buildElement element with
    | some e => return e
    | none => throw (.schemaMismatch k.tag element.name)
  else throw (.schemaMismatch k.tag element.name)

def buildDocument (d : Document) : List Element → Action Document
  | [] => return d
  | child :: rest => do
    match ← buildElement child with
    | some e => buildDocument (d.insert e).1 rest
    | none => buildDocument d rest

def readTree (root : Element) : Action Document := do
  if !root.hasTag rootTag then throw (.schemaMismatch rootTag root.name)
  else
    let config ← configuration
    let violations := if config.validate then Structure.violations root else []
    if violations.isEmpty then buildDocument .empty (Inversion.invert root).children
    else throw (.validity violations)

def readDocument (text : String) : Action Document := do
  let root ← liftExcept ((Xml.read text).mapError .xml : Except Error Element)
  readTree root

def read (text : String) : Action Document := do
  modify fun session => { session with problems := [], failure := none }
  tryCatch (readDocument text) fun e => do
    modify fun session => { session with failure := some e }
    throw e

/-- With this configuration the action does to a session what a computation records. -/
def Carries (config : Config) (act : Action α) (x : Recorded α) : Prop :=
  ∀ session, session.config = config → act.perform session = session.record x

variable {config : Config}

private theorem record_ok (session : Session) (a : α) :
    session.record (.ok a) = (session, .ok a) := by
  rw [Session.record, Recorded.ok, List.append_nil]

private theorem record_fail (session : Session) (e : Error) :
    session.record (.fail e : Recorded α) = (session, .error e) := by
  rw [Session.record, Recorded.fail, List.append_nil]

private theorem carries_ok (a : α) : Carries config (pure a) (.ok a) := by
  intro session _
  exact (record_ok session a).symm

private theorem carries_fail (e : Error) : Carries config (throw e : Action α) (.fail e) := by
  intro session _
  exact (record_fail session e).symm

private theorem carries_note (problem : Problem) : Carries config (note problem) (.note problem) :=
  fun _ _ => rfl

private theorem perform_bind (act : Action α) (next : α → Action β) (session : Session) :
    (act >>= next).perform session =
      match act.perform session with
      | (session', .ok a) => (next a).perform session'
      | (session', .error e) => (session', .error e) := by
  rw [perform, perform, ExceptT.run_bind, StateT.run_bind]
  obtain ⟨result, session'⟩ := act.run.run session
  cases result <;> rfl

theorem Carries.bind {act : Action α} {x : Recorded α} {next : α → Action β}
    {more : α → Recorded β} (first : Carries config act x)
    (then_ : ∀ a, Carries config (next a) (more a)) :
    Carries config (act >>= next) (x >>= more) := by
  intro session same
  rw [perform_bind, first session same]
  obtain ⟨problems, result⟩ := x
  cases result with
  | error e => rfl
  | ok a =>
      have noted := then_ a { session with problems := session.problems ++ problems } same
      refine Eq.trans noted ?_
      rw [Session.record, List.append_assoc]
      rfl

private theorem carries_configuration {next : Config → Action α} {x : Recorded α}
    (then_ : Carries config (next config) x) : Carries config (configuration >>= next) x := by
  rintro session rfl
  exact then_ session rfl

private theorem carries_ofExcept (result : Except Error α) :
    Carries config (liftExcept result) (.ofExcept result) := by
  cases result with
  | error e => exact carries_fail e
  | ok a => exact carries_ok a

private theorem carries_passOver (e : Error) (problem : Problem) (a : α) :
    Carries config (passOver e problem a)
      (if config.isStrict then .fail e else do .note problem; return a) := by
  apply carries_configuration
  split
  · exact carries_fail e
  · exact (carries_note problem).bind fun _ => carries_ok a

private theorem carries_adopt (place : Place) (e : Entity k) (child : Child) :
    Carries config (adopt place e child) (e.adopt config place child) := by
  unfold adopt Entity.adopt
  cases e.adopt? child with
  | some e => exact carries_ok e
  | none => exact carries_passOver _ _ e

private theorem carries_adoptAll (place : Place) (e : Entity k) (children : List Child) :
    Carries config (adoptAll place e children) (e.adoptAll config place children) := by
  induction children generalizing e with
  | nil => exact carries_ok e
  | cons child rest ih => exact (carries_adopt place e child).bind fun e => ih e

mutual
private theorem carries_buildElement : (x : Element) →
    Carries config (buildElement x) (ShoreMetadata.buildElement config x)
  | ⟨name, attributes, children, text, position⟩ => by
      rw [buildElement, ShoreMetadata.buildElement]
      cases Role.ofTag? name with
      | none => exact carries_passOver _ _ none
      | some role =>
          cases role with
          | entity k =>
              apply carries_configuration
              apply (carries_ofExcept _).bind
              intro e
              apply (carries_buildChildren children).bind
              intro offspring
              apply (carries_adoptAll _ _ offspring.children).bind
              intro e
              exact carries_ok _
          | wrapper w => exact carries_buildContent w.contentTags children
          | description => exact carries_ok none

private theorem carries_buildContent (tags : List String) : (children : List Element) →
    Carries config (buildContent tags children) (ShoreMetadata.buildContent config tags children)
  | [] => carries_ok none
  | child :: rest => by
      rw [buildContent, ShoreMetadata.buildContent]
      split
      · exact carries_buildElement child
      · exact carries_buildContent tags rest

private theorem carries_buildChildren : (children : List Element) →
    Carries config (buildChildren children) (ShoreMetadata.buildChildren config children)
  | [] => carries_ok _
  | child :: rest => by
      rw [buildChildren, ShoreMetadata.buildChildren]
      split
      · apply (carries_buildChildren rest).bind
        intro offspring
        exact carries_ok _
      · apply (carries_buildElement child).bind
        intro built
        apply (carries_buildChildren rest).bind
        intro offspring
        cases built with
        | some entity => exact carries_ok _
        | none => exact carries_ok offspring
end

private theorem carries_buildKind (k : Kind) (x : Element) :
    Carries config (buildKind k x) (ShoreMetadata.buildKind config k x) := by
  unfold buildKind ShoreMetadata.buildKind
  split
  · apply (carries_buildElement x).bind
    intro built
    cases built with
    | some e => exact carries_ok e
    | none => exact carries_fail _
  · exact carries_fail _

private theorem carries_buildDocument (d : Document) (children : List Element) :
    Carries config (buildDocument d children) (ShoreMetadata.buildDocument config d children) := by
  induction children generalizing d with
  | nil => exact carries_ok d
  | cons child rest ih =>
      rw [buildDocument, ShoreMetadata.buildDocument]
      apply (carries_buildElement child).bind
      intro built
      cases built with
      | some e => exact ih (d.insert e).1
      | none => exact ih d

private theorem carries_readTree (root : Element) :
    Carries config (readTree root) (ShoreMetadata.readTree config root) := by
  unfold readTree ShoreMetadata.readTree
  split
  · exact carries_fail _
  · apply carries_configuration
    dsimp only
    generalize (if config.validate then Structure.violations root else []) = violations
    split
    · exact carries_buildDocument .empty _
    · exact carries_fail _

private theorem carries_readDocument (text : String) :
    Carries config (readDocument text) (ShoreMetadata.readDocument config text) :=
  (carries_ofExcept _).bind carries_readTree

private theorem perform_tryCatch (act : Action α) (handle : Error → Action α) (session : Session) :
    (tryCatch act handle).perform session =
      match act.perform session with
      | (session', .ok a) => (session', .ok a)
      | (session', .error e) => (handle e).perform session' := by
  rw [perform, perform, ExceptT.run_tryCatch, StateT.run_bind]
  obtain ⟨result, session'⟩ := act.run.run session
  cases result <;> rfl

private theorem perform_read (session : Session) (text : String) :
    (read text).perform session = session.read text := by
  have carried := carries_readDocument text { session with problems := [], failure := none } rfl
  have start : (read text).perform session = (tryCatch (readDocument text) fun e => do
      modify fun session => { session with failure := some e }
      throw e).perform { session with problems := [], failure := none } := rfl
  rw [start, perform_tryCatch, carried, Session.record, List.nil_append, Session.read]
  cases (ShoreMetadata.readDocument session.config text).result with
  | ok d => rfl
  | error e => rfl

end Session.Action

namespace Session

inductive Call where
  | read (text : String)
  | element (x : Element)
  | kind (k : Kind) (x : Element)

def call (session : Session) : Call → Session
  | .read text => (session.read text).1
  | .element x => (session.buildElement x).1
  | .kind k x => (session.buildKind k x).1

def after (config : Config) (calls : List Call) : Session :=
  calls.foldl call (.start config)

private theorem config_call (session : Session) (c : Call) :
    (session.call c).config = session.config := by
  cases c <;> rfl

private theorem config_foldl_call (session : Session) (calls : List Call) :
    (calls.foldl call session).config = session.config := by
  induction calls generalizing session with
  | nil => rfl
  | cons c rest ih => exact (ih (session.call c)).trans (config_call session c)

theorem Action.Carries.adds {α : Type} {config : Config} {act : Action α} {x : Recorded α}
    (carries : Carries config act x) (problems : List Problem) (failure : Option Error) :
    act.perform ⟨config, problems, failure⟩ =
      (⟨config, problems ++ x.problems, failure⟩, x.result) :=
  carries ⟨config, problems, failure⟩ rfl

/-- The calls of a session are what its actions do, from the session that they are handed to the
one that they leave. After any calls a session reads a text as a new one does, with the same
outcome, problems and failure. What it builds does not depend on the problems that it holds: others
are only put behind them, also where it fails, and the failure of the last text stays. -/
theorem calls_leave_no_trace (config : Config) :
    (∀ session : Session,
      (∀ text, (Action.read text).perform session = session.read text) ∧
      (∀ x, (Action.buildElement x).perform session = session.buildElement x) ∧
      ∀ k x, (Action.buildKind k x).perform session = session.buildKind k x) ∧
    (∀ calls text, (after config calls).read text = (start config).read text) ∧
    (∀ x, ∃ added result, ∀ problems failure,
      buildElement ⟨config, problems, failure⟩ x =
        (⟨config, problems ++ added, failure⟩, result)) ∧
    ∀ k x, ∃ added result, ∀ problems failure,
      buildKind ⟨config, problems, failure⟩ k x =
        (⟨config, problems ++ added, failure⟩, result) := by
  have element : ∀ session x, (Action.buildElement x).perform session = session.buildElement x :=
    fun session x => Action.carries_buildElement x session rfl
  have kind : ∀ session k x, (Action.buildKind k x).perform session = session.buildKind k x :=
    fun session k x => Action.carries_buildKind k x session rfl
  refine ⟨fun session => ⟨Action.perform_read session, element session, kind session⟩,
    fun calls text => ?_, fun x => ?_, fun k x => ?_⟩
  · rw [Session.read, after, config_foldl_call]
    rfl
  · let outcome := ShoreMetadata.buildElement config x
    refine ⟨outcome.problems, outcome.result, fun problems failure => ?_⟩
    rw [← element]
    exact (Action.carries_buildElement x).adds problems failure
  · let outcome := ShoreMetadata.buildKind config k x
    refine ⟨outcome.problems, outcome.result, fun problems failure => ?_⟩
    rw [← kind]
    exact (Action.carries_buildKind k x).adds problems failure

end Session

end ShoreMetadata
