import PvsIndex.Command.Outcome
import PvsIndex.Lsp.Frame
import PvsIndex.Lsp.Server

/-! The command `pvs_lsp`: serves editors over standard input and output. -/

namespace PvsIndex.PvsLsp

def help : String :=
  let name := Server.name
  let version := Server.version
  s!"{name} {version}

    USAGE:
        {name} [OPTIONS] [SUBCOMMAND]

    EXAMPLE:
        {name} start
        {name} start --scoped

    SUBCOMMANDS:
        start           PVS の LSP サーバーとして起動する
                        (--scoped: 名前を引くときに宣言の有効範囲を考慮する)
        help            ヘルプを表示する (--help と同じ)
        version         バージョン番号を表示する (--version と同じ)

    OPTIONS:
        -h, --help      ヘルプを表示する
        -V, --version   バージョン番号を表示する
"

inductive Arguments where
  | help | version
  | start (mode : LookupMode)
  deriving DecidableEq

/-- A word that the command does not know. -/
inductive Failure where
  | unknownArgument (word : String)
  | unknownSubcommand (word : String)
  deriving DecidableEq

def Failure.message : Failure → String
  | unknownArgument word => s!"Unknown argument '{word}'."
  | unknownSubcommand word => s!"Unknown subcommand '{word}'."

namespace Arguments

def startMode (mode : LookupMode) : List String → Except Failure Arguments
  | [] => .ok (start mode)
  | word :: words =>
    if word = "--scoped" then startMode .scoped words else .error (.unknownArgument word)

def ofWords : List String → Except Failure Arguments
  | [] => .ok help
  | word :: words =>
    if word ∈ ["-h", "--help", "help", "-?", "/?"] then .ok help
    else if word ∈ ["-V", "--version", "version"] then .ok version
    else if word = "start" then startMode .byCategory words
    else .error (.unknownSubcommand word)

end Arguments

def Reply.render (reply : Reply) : String :=
  String.join (reply.bodies.map fun body => Frame.write body.render)

/-- What the server does with its input. -/
inductive Turn where
  /-- Answers a message and goes on with the rest, or is done if there is no server. -/
  | answer (text : String) (server : Option Server) (rest : List UInt8)
  /-- Waits for the message to be complete. -/
  | wait
  | stop
  | fail (fault : Fault)

def turn (server : Server) (ended : Bool) (stream : List UInt8) : Turn :=
  match Frame.read ended stream with
  | .error fault => .fail fault
  | .ok (.error .incomplete) => if ended then .stop else .wait
  | .ok (.error .unreadable) => .stop
  | .ok (.ok (body, rest)) =>
    match server.receive (String.ofList (Text.Utf8.decodeLossy body)) with
    | .error fault => .fail fault
    | .ok reply => .answer (Reply.render reply) reply.server rest

theorem length_of_turn {server : Server} {ended : Bool} {stream rest : List UInt8}
    {text : String} {next : Option Server} (h : turn server ended stream = .answer text next rest) :
    rest.length < stream.length := by
  unfold turn at h
  split at h
  · simp at h
  · split at h <;> simp at h
  · simp at h
  · next hread =>
    split at h
    · simp at h
    · simp only [Turn.answer.injEq] at h
      exact h.2.2 ▸ Frame.length_of_read hread

/-- A fault ends the server as it ends every program. -/
def faultExit : Nat := 101

def serve (server : Server) (stdout : String) (stream : List UInt8) : Outcome :=
  match _h : turn server true stream with
  | .answer text none _ => { stdout := stdout ++ text }
  | .answer text (some server) rest => serve server (stdout ++ text) rest
  | .wait | .stop => { stdout }
  | .fail fault => { exit := faultExit, stdout, stderr := fault.message ++ "\n" }
termination_by stream.length
decreasing_by exact length_of_turn _h

def run (words : List String) (stdin : List UInt8) : Outcome :=
  match Arguments.ofWords words with
  | .error failure => { exit := 1, stderr := failure.message ++ "\n" ++ help }
  | .ok .help => { stdout := help }
  | .ok .version => { stdout := Server.version ++ "\n" }
  | .ok (.start mode) => serve (.start mode) "" stdin

end PvsIndex.PvsLsp
