/-
# Sessions

A session is what outlives a single run: the supplies of tags and of register spaces, the tags,
values and traces that were given a name, and the record of what happened.  Nothing is ever taken
back, so a run that fails leaves behind what it did before.
-/
import DualTrace.Event

namespace DualTrace

/-- An instruction that was watched on its way to a driver, with the answer it got; an instruction
that failed has none. -/
structure Observation (α : Type) where
  instruction : Instruction (Value α)
  answer : Option (Value α)

/-- The text of an observation. -/
def Observation.text {α : Type} [Numeral α] (o : Observation α) : String :=
  o.instruction.text Value.text ++ " -> " ++ (o.answer.map Value.text).getD "error"

/-- What outlives a single run.  Names are looked up from the front, so the latest meaning of a name
counts; events and observations are held latest first. -/
structure Session (α : Type) where
  nextTag : Nat := 0
  nextSpace : UInt32 := 0
  tags : List (String × Tag) := []
  values : List (String × Value α) := []
  traces : List (String × Trace α) := []
  events : List (Event α) := []
  observations : List (Observation α) := []

namespace Session

variable {α : Type}

/-- The next tag, and the session in which it is taken. -/
def mintTag (s : Session α) : Tag × Session α :=
  (⟨s.nextTag⟩, { s with nextTag := s.nextTag + 1 })

/-- The next register space, and the session in which it is taken.  Spaces are numbered modulo
`2 ^ 32`. -/
def claimSpace (s : Session α) : UInt32 × Session α :=
  (s.nextSpace, { s with nextSpace := s.nextSpace + 1 })

/-- Give a tag a name. -/
def nameTag (name : String) (tag : Tag) (s : Session α) : Session α :=
  { s with tags := (name, tag) :: s.tags }

/-- The tag with this name; the first use of a name mints it. -/
def tagNamed (name : String) (s : Session α) : Tag × Session α :=
  match s.tags.lookup name with
  | some tag => (tag, s)
  | none =>
    let (tag, s) := s.mintTag
    (tag, s.nameTag name tag)

/-- Keep a value under a name. -/
def keepValue (name : String) (v : Value α) (s : Session α) : Session α :=
  { s with values := (name, v) :: s.values }

/-- Keep a trace under a name. -/
def keepTrace (name : String) (t : Trace α) (s : Session α) : Session α :=
  { s with traces := (name, t) :: s.traces }

/-- Record an event. -/
def report (e : Event α) (s : Session α) : Session α := { s with events := e :: s.events }

/-- Record an observation. -/
def observe (o : Observation α) (s : Session α) : Session α :=
  { s with observations := o :: s.observations }

/-- The session with an empty record. -/
def clearRecord (s : Session α) : Session α := { s with events := [], observations := [] }

end Session

end DualTrace
