import ModularLisp.Scope.Label
import ModularLisp.Syntax.Parser
import ModularLisp.Text.Utf8
import ModularLisp.Value.Basic

/-!
# Errors

The causes for which reading, evaluation and loading fail, their wording, and the kind that each one
belongs to. A fault is an operation used outside its domain, which no program is meant to reach.
-/

namespace ModularLisp

inductive EvalError where
  | operandOutOfRange (operation : Builtin)
  | divisionByZero
  | undefinable (label : Label)
  | defineTarget (target : Expr)
  | setTarget (target : Expr)
  | unbound (name : String)
  | setUnbound (name : String)
  | closureArity (name : Option String) (expected given : Nat)
  | builtinAtLeast (operation : Builtin) (least : Nat)
  | builtinExactly (operation : Builtin) (exact given : Nat)
  | listFormArity (form : String) (exact given : Nat)
  | defineArity
  | setArity
  | conditionalArity
  | lambdaArity
  | letArity
  | quoteArity
  | numberExpected (operation : Builtin) (kind : String)
  | listExpected (form position kind : String)
  | parametersExpected
  | parameterExpected (parameter : Expr)
  | parameterRepeated (name : String)
  | bindingsExpected
  | bindingExpected (binding : Expr)
  | bindingName (name : Expr)
  | notApplicable (shown kind : String)
  | emptyList (form : String)
  | noModuleDeclared (filename : String)
  | moduleNotFound (name : String)
  | exportsUndefined (name : String) (missing : List String)
  | memberNotExported (name member : String)
  | fileNotExporting (filename name : String)
  | circularRequire (chain : List String)
  | circularLoad (chain : List String)

inductive LoadError where
  | noLoader (filename : String)
  | hostFailure (filename reason : String)
  | notFound (filename : String)
  | notFoundUnder (filename : String) (roots : List String)
  | notUtf8 (filename : String) (octets : Text.Utf8.Malformed)
  deriving DecidableEq, Repr

inductive Fault where
  | notIntegerText (text : String)
  | tooManyDigits (count : Nat)
  | notIntegral
  | zeroDivisor
  | unboundExport (name : String)
  | noRequireInProgress
  | noLoadInProgress
  deriving DecidableEq, Repr

inductive Error where
  | read (e : ReadError)
  | eval (e : EvalError)
  | load (e : LoadError)
  | fault (f : Fault)

instance : Coe ReadError Error := ⟨.read⟩
instance : Coe EvalError Error := ⟨.eval⟩
instance : Coe LoadError Error := ⟨.load⟩
instance : Coe Fault Error := ⟨.fault⟩

def arrows (chain : List String) : String := String.intercalate " -> " chain

def EvalError.message : EvalError → String
  | .operandOutOfRange operation => operation.name ++ ": operand is out of float range"
  | .divisionByZero => "Division by zero"
  | .undefinable label => "Cannot define " ++ label.describe ++ " as a symbol"
  | .defineTarget target => "define name must be a symbol, got " ++ target.describe
  | .setTarget target => "set first argument must be a symbol, got " ++ target.describe
  | .unbound name => "Cannot lookup unbound symbol " ++ name
  | .setUnbound name => "Cannot set unbound symbol " ++ name
  | .closureArity name expected given =>
    let label := name.getD ""
    (if label = "" then "lambda" else label) ++ " expects " ++ toString expected ++
      " argument(s), got " ++ toString given
  | .builtinAtLeast operation least =>
    operation.name ++ " requires at least " ++ toString least ++ " argument(s)"
  | .builtinExactly operation exact given =>
    operation.name ++ " requires exactly " ++ toString exact ++ " argument(s), got " ++
      toString given
  | .listFormArity form exact given =>
    form ++ " requires exactly " ++ toString exact ++
      (if exact = 1 then " argument" else " arguments") ++ ", got " ++ toString given
  | .defineArity => "define requires exactly 2 arguments"
  | .setArity => "set requires exactly 2 arguments: (set var value)"
  | .conditionalArity => "if requires a condition, a then-expression and an optional else"
  | .lambdaArity => "lambda requires at least a parameter list"
  | .letArity => "let requires a binding list"
  | .quoteArity => "quote expects exactly 1 argument"
  | .numberExpected operation kind =>
    "All arguments to " ++ operation.name ++ " must be numbers, got " ++ kind
  | .listExpected form position kind =>
    form ++ " " ++ position ++ " must be a list, got " ++ kind
  | .parametersExpected => "lambda parameters must be a list of symbols"
  | .parameterExpected parameter =>
    "lambda parameter must be a symbol, got " ++ parameter.describe
  | .parameterRepeated name => "lambda parameter '" ++ name ++ "' appears more than once"
  | .bindingsExpected => "let bindings must be a list"
  | .bindingExpected binding =>
    "let binding must be a (name value) pair, got " ++ binding.describe
  | .bindingName name => "let binding name must be a symbol, got " ++ name.describe
  | .notApplicable shown kind => "Cannot apply non-function " ++ shown ++ " (" ++ kind ++ ")"
  | .emptyList form => form ++ " of empty list"
  | .noModuleDeclared filename => "'" ++ filename ++ "' does not declare a module"
  | .moduleNotFound name => "Module '" ++ name ++ "' not found"
  | .exportsUndefined name missing =>
    "Module '" ++ name ++ "' exports undefined symbol(s): " ++ String.intercalate ", " missing
  | .memberNotExported name member => "Module '" ++ name ++ "' does not export '" ++ member ++ "'"
  | .fileNotExporting filename name => "'" ++ filename ++ "' does not export '" ++ name ++ "'"
  | .circularRequire chain => "Circular require: " ++ arrows chain
  | .circularLoad chain => "Circular load: " ++ arrows chain

def LoadError.message : LoadError → String
  | .noLoader filename => "No source loader configured to load '" ++ filename ++ "'"
  | .hostFailure filename reason => "Cannot load '" ++ filename ++ "': " ++ reason
  | .notFound filename => "Cannot find '" ++ filename ++ "'"
  | .notFoundUnder filename roots =>
    "Cannot find '" ++ filename ++ "' (searched: " ++ String.intercalate ", " roots ++ ")"
  | .notUtf8 filename octets => "Cannot read '" ++ filename ++ "': " ++ octets.message

def Fault.message : Fault → String
  | .notIntegerText text => "not an integer: " ++ Text.quoted text
  | .tooManyDigits count => "too many digits to convert: " ++ toString count
  | .notIntegral => "not an integral number"
  | .zeroDivisor => "zero divisor"
  | .unboundExport name => "unbound export: " ++ name
  | .noRequireInProgress => "no require in progress"
  | .noLoadInProgress => "no load in progress"

def Error.message : Error → String
  | .read e => e.message
  | .eval e => e.message
  | .load e => e.message
  | .fault f => f.message

inductive ErrorKind where
  | malformedText
  | emptyInput
  | invalidNumber
  | invalidBoolean
  | unexpectedToken
  | unexpectedClosing
  | unmatchedDelimiter
  | trailingToken
  | malformedForm
  | evaluation
  | invalidSymbol
  | unboundSymbol
  | arity
  | type
  | emptyList
  | module
  | moduleNotFound
  | exportNotFound
  | loader
  | circularRequire
  | circularLoad
  | fault
  deriving DecidableEq, Repr

def ReadError.kind : ReadError → ErrorKind
  | .unterminatedString _ => .malformedText
  | .emptyInput => .emptyInput
  | .invalidNumber _ | .numberOutOfRange _ => .invalidNumber
  | .invalidBoolean _ => .invalidBoolean
  | .unexpectedEnd => .unexpectedToken
  | .unexpectedClosing _ => .unexpectedClosing
  | .unmatchedOpening _ => .unmatchedDelimiter
  | .trailingToken _ => .trailingToken
  | .malformed _ => .malformedForm

def EvalError.kind : EvalError → ErrorKind
  | .operandOutOfRange _ | .divisionByZero => .evaluation
  | .undefinable _ | .defineTarget _ | .setTarget _ => .invalidSymbol
  | .unbound _ | .setUnbound _ => .unboundSymbol
  | .closureArity .. | .builtinAtLeast .. | .builtinExactly .. | .listFormArity .. => .arity
  | .defineArity | .setArity | .conditionalArity | .lambdaArity | .letArity | .quoteArity => .arity
  | .numberExpected .. | .listExpected .. | .parametersExpected | .parameterExpected _ => .type
  | .parameterRepeated _ | .bindingsExpected | .bindingExpected _ | .bindingName _ => .type
  | .notApplicable .. => .type
  | .emptyList _ => .emptyList
  | .noModuleDeclared _ => .module
  | .moduleNotFound _ => .moduleNotFound
  | .exportsUndefined .. | .memberNotExported .. | .fileNotExporting .. => .exportNotFound
  | .circularRequire _ => .circularRequire
  | .circularLoad _ => .circularLoad

def Error.kind : Error → ErrorKind
  | .read e => e.kind
  | .eval e => e.kind
  | .load _ => .loader
  | .fault _ => .fault

end ModularLisp
