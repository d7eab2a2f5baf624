import SchemaWeave.Command.Run
import SchemaWeave.Http.Wire
import Std.Async.DNS
import Std.Async.TCP
import Std.Async.Timer

/-!
# The program

The command on the files, the network and the clock of the operating system. Only plain connections are made.
-/

namespace SchemaWeave.Program

open Files Http
open Std.Async (Async)
open Std.Net (SocketAddress IPAddr)

/-- Why the system refuses an operation. -/
def osErrorOf (e : IO.Error) : OsError :=
  match e with
  | .noFileOrDirectory _ _ _ => .notFound
  | .inappropriateType _ 20 _ => .notDirectory
  | .inappropriateType _ 21 _ => .isDirectory
  | .invalidArgument _ 36 _ => .nameTooLong
  | .permissionDenied _ code details => .other s!"{details} (os error {code})"
  | .resourceExhausted _ code details => .other s!"{details} (os error {code})"
  | .invalidArgument _ code details => .other s!"{details} (os error {code})"
  | e => .other (toString e)

/-- What an operation of the system gives, or why it is refused. -/
def attempt {α : Type} (action : IO α) : IO (Except OsError α) := do
  try return .ok (← action)
  catch e => return .error (osErrorOf e)

/-- The type of what is at a path, if anything is. -/
def fileType? (p : Path) : IO (Option IO.FS.FileType) := do
  try return some (← (System.mkFilePath [p]).metadata).type
  catch _ => return none

/-- The address of a host's port. -/
def socketAddress (address : IPAddr) (port : UInt16) : SocketAddress :=
  match address with
  | .v4 addr => .v4 { addr, port }
  | .v6 addr => .v6 { addr, port }

/-- The bytes of a response that comes over a connection. -/
partial def receive (socket : Std.Async.TCP.Socket.Client) (bytes : ByteArray) : Async ByteArray := do
  match ← socket.recv? 65536 with
  | none => return bytes
  | some more =>
    let bytes := bytes ++ more
    if Response.isWhole bytes.toList then return bytes else receive socket bytes

/-- Sends a request and gives the bytes of the response. -/
def converse (r : Request) (t : Target) : Async ByteArray := do
  let addresses ← Std.Async.DNS.getAddrInfo t.host (toString t.port)
  match addresses[0]? with
  | none => throw (IO.userError "the host has no address")
  | some address =>
    let socket ← Std.Async.TCP.Socket.Client.mk
    socket.connect (socketAddress address t.port.toUInt16)
    socket.send (r.wire t)
    receive socket .empty

/-- A computation that fails after some seconds. -/
def within (limit : Option Nat) (action : Async ByteArray) : Async ByteArray :=
  match limit with
  | none => action
  | some seconds => Async.race action do
    Std.Async.sleep (Std.Time.Millisecond.Offset.ofNat (1000 * seconds))
    throw (IO.userError "the time limit has passed")

/-- Sends a request and waits for the response. -/
def exchange (r : Request) : IO (Except String Response) := do
  match Target.ofUrl? r.url with
  | none => return .error "only plain connections are supported"
  | some t =>
    try
      let bytes ← (within r.timeout (converse r t)).block
      match Response.ofBytes? bytes.toList with
      | some response => return .ok response
      | none => return .error "the response cannot be read"
    catch e => return .error (toString e)

instance : Host IO where
  currentDir := do return (← IO.currentDir).toString
  isDir p := do return match ← fileType? p with
    | some .dir => true
    | _ => false
  isFile p := do return match ← fileType? p with
    | some .file => true
    | _ => false
  entries p := attempt do
    let entries ← (System.mkFilePath [p]).readDir
    entries.toList.mapM fun e => do return (e.fileName, (← fileType? e.path.toString) matches some .dir)
  readFile p := attempt (IO.FS.readBinFile (System.mkFilePath [p]))
  writeFile p content := attempt (IO.FS.writeBinFile (System.mkFilePath [p]) content)
  exchange := exchange
  library := return .plain
  clock := do return (← IO.monoMsNow) / 10

end SchemaWeave.Program

def main (args : List String) : IO UInt32 := do
  let report ← SchemaWeave.Command.run args (m := IO)
  IO.print report.out
  IO.eprint report.err
  return report.code.toUInt32
