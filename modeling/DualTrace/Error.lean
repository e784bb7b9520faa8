/-
# Errors

Each error is a cause together with the things it is about.  `Error.message` words it, and
`Error.kind` says which class of failure it belongs to.
-/
import DualTrace.Instruction
import DualTrace.Value

namespace DualTrace

/-- What was counted when a count is wrong. -/
inductive Counted where
  /-- The operands of an instruction. -/
  | operands (op : Op)
  /-- The arguments bound to the parameters of a trace. -/
  | replayArguments
  /-- The arguments given to a trace whose parameters are bound already. -/
  | replayDriverArguments
  /-- The primals given to a directional derivative, one for each seed. -/
  | primals
  /-- The seed tangents, one for each primal. -/
  | tangents
  deriving DecidableEq

/-- The words for what was counted. -/
def Counted.text : Counted → String
  | operands op => op.name
  | replayArguments => "replay arguments"
  | replayDriverArguments => "replay driver arguments"
  | primals => "jvp primals"
  | tangents => "tangents"

/-- The classes of failure. -/
inductive Error.Kind where
  /-- A count is wrong. -/
  | arity
  /-- An instruction cannot be carried out. -/
  | operation
  /-- A completion value or a trace breaks a rule of its structure. -/
  | invariant
  /-- A check that guards the optimizer itself failed. -/
  | panic
  /-- A serial form denotes no trace. -/
  | json
  deriving DecidableEq

/-- The causes of failure. -/
inductive Error (α : Type) where
  /-- Some things were counted and are not as many as they should be. -/
  | wrongCount (what : Counted) (expected actual : Nat)
  /-- No operation has this name. -/
  | unknownOp (name : String)
  /-- Direct evaluation was given an operand that is not a number. -/
  | notNumber (op : Op) (operand : Value α)
  /-- A recording was given an operand that is not an atom. -/
  | notAtom (op : Op) (operand : Value α)
  /-- A name or an operand refers to nothing. -/
  | unbound (what : String)
  /-- An evaluation completed with something other than a number. -/
  | nonNumericResult (result : Value α)
  /-- A drive completed with a dual number that another instance owns. -/
  | foreignResult (tag owner : Tag)
  /-- A drive completed with something other than a dual number. -/
  | plainResult (tag : Tag) (result : Value α)
  /-- A staged program completed with something other than an atom. -/
  | nonAtomResult (result : Value α)
  /-- A replayed trace reads a register that has no value. -/
  | unboundRead (r : Register)
  /-- A trace has one parameter twice. -/
  | duplicateParam (r : Register)
  /-- The equation at this position reads a register that nothing before it binds. -/
  | earlyRead (position : Nat) (r : Register)
  /-- The equation at this position binds a register that is bound already. -/
  | rebinding (position : Nat) (r : Register)
  /-- A trace returns a register that nothing binds. -/
  | unboundReturn (r : Register)
  /-- The return register is an alias of a literal. -/
  | literalReturn (r : Register) (x : α)
  /-- A round of the optimizer left an ill-formed trace behind. -/
  | illFormedRound (round : Nat)
  /-- A serial form denotes no trace. -/
  | malformedJson

namespace Error

variable {α : Type}

/-- The class that an error belongs to. -/
def kind : Error α → Kind
  | wrongCount .. => .arity
  | unknownOp .. | notNumber .. | notAtom .. | unbound .. => .operation
  | illFormedRound .. => .panic
  | malformedJson => .json
  | _ => .invariant

variable [Numeral α]

/-- The sentence for an instruction that cannot be carried out. -/
def refusal (subject reason : String) : String :=
  "cannot perform `" ++ subject ++ "`: " ++ reason

/-- The sentence for a broken rule of structure. -/
def violation (rule : String) : String := "invariant violation: " ++ rule

/-- The words for an error. -/
def message : Error α → String
  | wrongCount what expected actual =>
    "arity mismatch in " ++ what.text ++ ": expected " ++ toString expected ++ ", got " ++
      toString actual
  | unknownOp name => refusal name "unrecognized opcode"
  | notNumber op operand => refusal op.name ("operand " ++ operand.text ++ " is not a number")
  | notAtom op operand => refusal op.name ("cannot stage non-atom operand " ++ operand.text)
  | unbound what => refusal "driver" ("unbound " ++ what)
  | nonNumericResult result =>
    violation ("evaluation completed with non-numeric value " ++ result.text)
  | foreignResult tag owner =>
    violation ("jvp " ++ tag.text ++ " completed with a dual owned by instance " ++ owner.text)
  | plainResult tag result =>
    violation ("jvp " ++ tag.text ++ " completed with non-dual value " ++ result.text)
  | nonAtomResult result =>
    violation ("traced computation completed with " ++ result.text ++ ", which is not an atom")
  | unboundRead r => violation ("replay reads unbound register " ++ r.text)
  | duplicateParam r => violation ("parameter " ++ r.text ++ " is bound twice")
  | earlyRead position r =>
    violation ("equation " ++ toString position ++ " reads " ++ r.text ++ " before it is bound")
  | rebinding position r =>
    violation ("equation " ++ toString position ++ " rebinds " ++ r.text)
  | unboundReturn r => violation ("return register " ++ r.text ++ " is never bound")
  | literalReturn r x =>
    violation ("return register " ++ r.text ++ " aliases literal " ++ Numeral.text x)
  | illFormedRound round =>
    "optimizer round " ++ toString round ++ " produced an ill-formed trace"
  | malformedJson => "malformed trace"

end Error

end DualTrace
