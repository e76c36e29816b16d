import CapLang.Fault.Basic
import CapLang.Value.Basic

/-!
# Host objects

What stands behind the handles of programs: writers, readers, and objects that a host brings along.
The world is all that calls of objects can read or change, and it keeps a record of the calls. It
also gives out the stamps of frames and records, so that no two runs give the same one.
-/
namespace CapLang

/-- Where a writer puts text. -/
inductive Sink
  /-- Keeps the text for the host to look at. -/
  | buffer (written : String)
  /-- Forgets the text. -/
  | silent
  /-- The standard output. -/
  | standardOutput
deriving DecidableEq

/-- Where a reader finds text. -/
inductive Origin
  /-- The same text every time. -/
  | text (s : String)
  /-- All that is left of the standard input. -/
  | standardInput
deriving DecidableEq

/-- A call of a method of a host object. -/
structure Invocation where
  /-- The handle through which the object was reached. -/
  handle : Handle
  method : String
  args : List Value

/-- A host object. -/
inductive Object
  | writer (sink : Sink)
  | reader (origin : Origin)
  /-- An object of the host's own. It answers a call of a method by the arguments and by the calls
  that objects have received before, the last of them first. -/
  | custom (kind : String)
      (answer : List Invocation → String → List Value → Except Fault Value)

namespace Object

/-- The word for the kind of object in reports. -/
def kind : Object → String
  | writer _ => "Writer"
  | reader _ => "Reader"
  | custom kind _ => kind

/-- The text that a writer has kept; nothing for objects that are no writers. -/
def written? : Object → Option String
  | writer (.buffer s) => some s
  | writer _ => some ""
  | _ => none

/-- A writer without the text it has kept. Other objects stay as they are. -/
def cleared : Object → Object
  | writer (.buffer _) => writer (.buffer "")
  | object => object

end Object

/-- The text that a call asks a writer to write. Only the first argument counts. -/
def Sink.request (method : String) (args : List Value) : Except Cause String :=
  if method = "write" then
    match args with
    | .str s :: _ => .ok s
    | v :: _ => .error (.typeMismatch "String" v.typeName)
    | [] => .error (.arityMismatch "" 1 0)
  else .error (.unknownMethod "Writer" method)

/-- Whether a call asks a reader to read. There must be no arguments. -/
def Origin.request (method : String) (args : List Value) : Except Cause Unit :=
  if method = "read" then
    if args.isEmpty then .ok () else .error (.arityMismatch "" 0 args.length)
  else .error (.unknownMethod "Reader" method)

/-- Host objects and the streams of the process. -/
structure World where
  objects : Array Object
  /-- How many stamps have been given out. -/
  stamps : Nat
  /-- The calls that objects have received, the last one first. -/
  calls : List Invocation
  /-- What is left of the standard input. -/
  input : ByteArray
  /-- What has been written to the standard output. -/
  output : String

namespace World

/-- A world without objects. -/
def ofInput (input : ByteArray) : World := ⟨#[], 0, [], input, ""⟩

/-- Adds an object. -/
def add (w : World) (object : Object) : ObjectId × World :=
  (⟨w.objects.size⟩, { w with objects := w.objects.push object })

/-- A stamp that nothing has got yet. -/
def stamp (w : World) : Stamp × World := (⟨w.stamps⟩, { w with stamps := w.stamps + 1 })

/-- The object with a number. -/
def object? (w : World) (id : ObjectId) : Option Object := w.objects[id.index]?

/-- Clears an object if it is a writer. -/
def clear (w : World) (id : ObjectId) : World :=
  { w with objects := w.objects.modify id.index Object.cleared }

/-- Writes a text where a writer puts it. -/
def write (w : World) (id : ObjectId) (s : String) : Sink → World
  | .buffer _ => { w with objects := w.objects.modify id.index fun
      | .writer (.buffer written) => .writer (.buffer (written ++ s))
      | object => object }
  | .silent => w
  | .standardOutput => { w with output := w.output ++ s }

/-- Reads all text from where a reader finds it. Standard input that is not UTF-8 is lost. -/
def read (w : World) : Origin → Except Fault Value × World
  | .text s => (.ok (.str s), w)
  | .standardInput =>
    let rest := { w with input := ByteArray.empty }
    match String.fromUTF8? w.input with
    | some s => (.ok (.str s), rest)
    | none =>
      (.error (.ofCause (.capabilityFailed "Reader" "stream did not contain valid UTF-8")), rest)

/-- Calls a method of the object behind a handle. If there is no object, it has no methods. -/
def invoke (w : World) (h : Handle) (method : String) (args : List Value) :
    Except Fault Value × World :=
  let w' := { w with calls := ⟨h, method, args⟩ :: w.calls }
  match w.object? h.object with
  | some (.writer sink) =>
    match Sink.request method args with
    | .ok s => (.ok .unit, w'.write h.object s sink)
    | .error cause => (.error (.ofCause cause), w')
  | some (.reader origin) =>
    match Origin.request method args with
    | .ok () => w'.read origin
    | .error cause => (.error (.ofCause cause), w')
  | some (.custom _ answer) => (answer w.calls method args, w')
  | none => (.error (.ofCause (.unknownMethod h.kind method)), w')

end World
end CapLang
