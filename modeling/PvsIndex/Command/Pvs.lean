import PvsIndex.Analysis
import PvsIndex.Command.Outcome
import PvsIndex.Json.Encoding
import PvsIndex.Json.Printer
import PvsIndex.Text.Digits

/-! The command `pvs`: checks source files and finds declarations in them. -/

namespace PvsIndex.Pvs

def name : String := "pvs"

def version : String := "0.1.0"

def help : String :=
  s!"{name} v{version}

使用例:
    {name} parse stacks.pvs
    {name} parse --test stacks.pvs arith.pvs
    {name} find stacks.pvs push
    {name} find stacks.pvs x --scoped 15:40

サブコマンド parse:
    ソースファイルを構文解析し、宣言を索引づけます。

    凡例:
        {name} parse [--test] <FILE>...
    引数:
        <FILE>      ソースファイル (複数指定すると並列に処理します)
        --test      進捗と宣言の一覧を出力する
    標準出力:
        ファイルごとに構文エラーのリストを JSON で出力します。

サブコマンド find:
    名前から宣言を探します。

    凡例:
        {name} find <FILE> <NAME> [--scoped LINE:COL]
    引数:
        <FILE>      ソースファイル
        <NAME>      探す名前
        --scoped    指定した位置 (行は 1 から、列は 0 から) で有効な宣言を探す
    標準出力:
        見つかった宣言を JSON で出力します。見つからなければ null を出力します。

サブコマンド help:
    ヘルプを表示します。

その他:
    -h, --help      ヘルプを表示する
    -V, --version   バージョンを表示する

環境変数:
    RUST_LOG        ログの詳細度 (例: RUST_LOG=debug)
"

/-- What makes the command fail. -/
inductive Failure where
  | unknownCommand (word : String)
  | unknownOption (word : String)
  | noFiles
  | noPosition
  | badPosition (text : String)
  | badFindArguments
  | unreadable (path : String) (error : FileError)
  | syntaxErrors (path : String)
  | stopped (fault : Fault)
  deriving DecidableEq

/-- Words to the user are shown quoted, except where a file is to blame. -/
def Failure.message : Failure → String
  | unknownCommand word => Text.quoted s!"サブコマンド '{word}' はありません。"
  | unknownOption word => Text.quoted s!"不明なオプション '{word}' があります。"
  | noFiles => Text.quoted "ソースファイルが指定されていません。"
  | noPosition => Text.quoted "--scoped の後に位置がありません。"
  | badPosition text => Text.quoted s!"位置 '{text}' は LINE:COL の形式ではありません。"
  | badFindArguments => Text.quoted "ファイル名と探す名前を指定してください。"
  | unreadable path error => s!"{path}: {error.details}"
  | syntaxErrors path => Text.quoted s!"{path} に構文エラーがあります。"
  | stopped fault => Text.quoted fault.message

def indent (text : String) : String :=
  String.join (text.toList.map fun c => if c = '\n' then "\n    " else c.toString)

def Failure.outcome (stdout : String) (failure : Failure) : Outcome :=
  { exit := 1
    stdout
    stderr := s!"[ERROR {name}] {indent failure.message}\n詳しくは `{name} help` を参照してください。\n" }

def isHelpFlag (word : String) : Bool :=
  word = "-h" || word = "-help" || word = "--help"

structure ParseArguments where
  testing : Bool := false
  files : List String := []
  helping : Bool := false
  deriving DecidableEq

namespace ParseArguments

def addWord (arguments : ParseArguments) (word : String) : Except Failure ParseArguments :=
  if word = "--test" ∨ word = "-test" then .ok { arguments with testing := true }
  else if isHelpFlag word then .ok { arguments with helping := true }
  else if word.startsWith "-" then .error (.unknownOption word)
  else .ok { arguments with files := arguments.files ++ [word] }

def ofWords (words : List String) : Except Failure ParseArguments := do
  let arguments ← words.foldlM addWord {}
  if arguments.files.isEmpty ∧ ¬arguments.helping then throw .noFiles
  return arguments

end ParseArguments

def analyze (read : FileReader) (dumping : Bool) (path : String) : Except Failure Analysis := do
  let text ← (read path).mapError (.unreadable path)
  (Analysis.ofText text dumping).mapError .stopped

def diagnosticsLine (a : Analysis) : String :=
  (Json.ofList Diagnostic.toJson a.diagnostics).render ++ "\n"

/-- What is printed about one file. A test says more if there are no errors. -/
def parseFile (read : FileReader) (testing : Bool) (path : String) : Except Failure String := do
  let a ← analyze read testing path
  let heading := if testing then s!"Parsing file {path}\n" else ""
  if testing ∧ a.succeeded then
    return heading ++ s!"{path} parsed successfully!\n" ++ String.join a.dumps
  else return heading ++ diagnosticsLine a

/-- Prints about the files in order, up to the first that fails. -/
def printFiles (print : String → Except Failure String) (stdout : String) : List String → Outcome
  | [] => { stdout }
  | path :: paths =>
    match print path with
    | .error failure => failure.outcome stdout
    | .ok text => printFiles print (stdout ++ text) paths

def parse (read : FileReader) (words : List String) : Outcome :=
  match ParseArguments.ofWords words with
  | .error failure => failure.outcome ""
  | .ok arguments =>
    if arguments.helping then { stdout := help }
    else printFiles (parseFile read arguments.testing) "" arguments.files

structure FindArguments where
  words : List String := []
  position : Option Position := none
  deriving DecidableEq

/-- A line and a character with a colon between them. There is no line zero. -/
def readPosition? (text : String) : Option Position := do
  let cs := text.toList
  let line := cs.takeWhile (· ≠ ':')
  match cs.drop line.length with
  | [] => none
  | _ :: character =>
    let p : Position :=
      ⟨← Text.readBelow Word.limit line, ← Text.readBelow Word.limit character⟩
    if p.line = 0 then none else some p

namespace FindArguments

def ofWords (arguments : FindArguments) : List String → Except Failure FindArguments
  | [] => .ok arguments
  | [word] =>
    if word = "--scoped" then .error .noPosition
    else .ok { arguments with words := arguments.words ++ [word] }
  | word :: next :: rest =>
    if word = "--scoped" then
      match readPosition? next with
      | none => .error (.badPosition next)
      | some p => ofWords { arguments with position := some p } rest
    else ofWords { arguments with words := arguments.words ++ [word] } (next :: rest)

end FindArguments

def findIn (read : FileReader) (path word : String) (position : Option Position) : Outcome :=
  match analyze read false path with
  | .error failure => failure.outcome ""
  | .ok a =>
    if a.succeeded then
      let found := LookupMode.scoped.find? a.table word position
      { stdout := (Json.ofOption Declaration.toJson found).pretty ++ "\n" }
    else Failure.outcome (diagnosticsLine a) (.syntaxErrors path)

def find (read : FileReader) (words : List String) : Outcome :=
  match FindArguments.ofWords {} words with
  | .error failure => failure.outcome ""
  | .ok ⟨[path, word], position⟩ => findIn read path word position
  | .ok _ => Failure.outcome "" .badFindArguments

inductive Command where
  | parse | find | help | version
  deriving DecidableEq

def Command.ofWord? (word : String) : Option Command :=
  if word = "parse" then some parse
  else if word = "find" then some find
  else if word = "help" ∨ word = "-?" ∨ word = "/?" ∨ isHelpFlag word then some help
  else if word = "version" ∨ word = "-V" ∨ word = "--version" then some version
  else none

def run (read : FileReader) : List String → Outcome
  | [] => { stdout := help }
  | word :: words =>
    match Command.ofWord? word with
    | none => Failure.outcome "" (.unknownCommand word)
    | some .parse => parse read words
    | some .find => find read words
    | some .help => { stdout := help }
    | some .version => { stdout := version ++ "\n" }

end PvsIndex.Pvs
