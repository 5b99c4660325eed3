import Rasync.Spec.Merge
import Rasync.Spec.Strtoul

/-! `app/cli.cpp` and `app/cli.h`: the command line and what is made of it. The arguments are
those after the program's name. -/

namespace Rasync

namespace Cli

/-- The bytes of a text that is plain ASCII. -/
def ascii (text : String) : Bytes := text.toList.map fun c => UInt8.ofNat c.toNat

structure FolderOptions where
  directory : Bytes := []
  /-- empty unless `--name` gives it -/
  name : Bytes := []
  mode : SyncMode := .twoWay
  source : Bool := false
  replica : Bool := false
  conflict : ConflictPolicy := .newer
  noDelete : Bool := false
  noDelta : Bool := false
  followSymlinks : Bool := false
  ignores : List Bytes := []
  ignoreFile : Bytes := []
  deriving DecidableEq

structure Options where
  folders : List FolderOptions := []
  port : UInt16 := 0
  peers : List Bytes := []
  key : Bytes := []
  allow : List Bytes := []
  discover : Bool := false
  lanOnly : Bool := false
  interval : Int32 := 3
  once : Bool := false
  dataDir : Bytes := []
  noColor : Bool := false
  verbosity : ℕ := 1
  deriving DecidableEq

inductive Action where
  | run
  | help
  | version
  | error
  deriving DecidableEq

structure ParseResult where
  action : Action := .run
  error : Bytes := []
  options : Options := {}
  deriving DecidableEq

def isHexDigit (c : UInt8) : Bool := isDigit c || (0x41 ≤ c ∧ c ≤ 0x46) || (0x61 ≤ c ∧ c ≤ 0x66)

def isPeerId (s : Bytes) : Bool := s.length = 64 && s.all isHexDigit

/-- `valid_folder_name`: the reason why not, if there is one. -/
def folderNameFault (name : Bytes) : Option Bytes :=
  if name = [] then some (ascii "a folder name may not be empty")
  else if name.length > 255 then some (ascii "folder name is too long (255 bytes max)")
  else if name.any fun c => c < 0x20 ∨ c = 0x7f then some (ascii "folder name contains a control character")
  else if name.head? = some 0x20 ∨ name.getLast? = some 0x20 then
    some (ascii "folder name has leading or trailing whitespace")
  else none

def policyOf (c : Bytes) : Option ConflictPolicy :=
  if c = ascii "newer" then some .newer
  else if c = ascii "larger" then some .larger
  else if c = ascii "local" then some .preferLocal
  else if c = ascii "remote" then some .preferRemote
  else none

/-- The options, by what they are for. -/
inductive Opt where
  | help
  | version
  | port
  | peer
  | key
  | allow
  | discover
  | lan
  | name
  | mirror
  | source
  | replica
  | conflict
  | noDelete
  | noDelta
  | followSymlinks
  | ignore
  | ignoreFile
  | interval
  | once
  | dataDir
  | noColor
  | verbose
  | quiet
  deriving DecidableEq

/-- The names that an argument is compared with. -/
def optionNames : List (Bytes × Opt) :=
  [(ascii "-h", .help), (ascii "--help", .help), (ascii "--version", .version), (ascii "-p", .port),
    (ascii "--port", .port), (ascii "--peer", .peer), (ascii "--key", .key), (ascii "--allow", .allow),
    (ascii "--discover", .discover), (ascii "--lan", .lan), (ascii "--name", .name), (ascii "--mirror", .mirror),
    (ascii "--source", .source), (ascii "--replica", .replica), (ascii "--conflict", .conflict),
    (ascii "--no-delete", .noDelete), (ascii "--no-delta", .noDelta), (ascii "--follow-symlinks", .followSymlinks),
    (ascii "--ignore", .ignore), (ascii "--ignore-file", .ignoreFile), (ascii "--interval", .interval),
    (ascii "--once", .once), (ascii "--data-dir", .dataDir), (ascii "--no-color", .noColor), (ascii "-v", .verbose),
    (ascii "--verbose", .verbose), (ascii "-q", .quiet), (ascii "--quiet", .quiet)]

/-- An argument, the value it carries behind a `=`, and the argument that follows. -/
structure Arg where
  arg : Bytes
  inline : Option Bytes
  following : Option Bytes

def equalsSign : UInt8 := 0x3d

/-- Only `--opt=value` is split. -/
def splitArg (arg : Bytes) (following : Option Bytes) : Arg :=
  if arg.take 2 = [minusSign, minusSign] then
    match cutFirst equalsSign arg with
    | some (opt, value) => ⟨opt, some value, following⟩
    | none => ⟨arg, none, following⟩
  else ⟨arg, none, following⟩

/-- The result so far, and the folder options before the first directory. -/
structure Parser where
  res : ParseResult := {}
  defaults : FolderOptions := {}

namespace Parser

def fail (msg : Bytes) (p : Parser) : Parser := { p with res.action := .error, res.error := msg }

/-- A change of `current()`: the last folder or, while there is none, the defaults. -/
def current (f : FolderOptions → FolderOptions) (p : Parser) : Parser :=
  match p.res.options.folders.getLast? with
  | some last => { p with res.options.folders := p.res.options.folders.dropLast ++ [f last] }
  | none => { p with defaults := f p.defaults }

end Parser

/-- `next(name)`: the value, whether it is the argument that follows, and a failure noted when
there is none. -/
def next (a : Arg) (p : Parser) : Bytes × Bool × Parser :=
  match a.inline, a.following with
  | some value, _ => (value, false, p)
  | none, some value => (value, true, p)
  | none, none => ([], false, p.fail (ascii "option " ++ a.arg ++ ascii " needs a value"))

/-- What an iteration comes to: a return, or the next one, which may have to pass over the
argument that follows. -/
inductive Handled where
  | returned (r : ParseResult)
  | goesOn (took : Bool) (p : Parser)

/-- An argument that is no option opens a folder, with the defaults. -/
def openFolder (directory : Bytes) (p : Parser) : Parser :=
  { p with res.options.folders := p.res.options.folders ++ [{ p.defaults with directory }] }

/-- The options one by one, each with its value if it asks for one. -/
def handleOpt (a : Arg) (p : Parser) : Opt → Handled
  | .help => .returned { p.res with action := .help }
  | .version => .returned { p.res with action := .version }
  | .port =>
    let (value, took, p) := next a p
    match readPort value with
    | some port => .goesOn took { p with res.options.port := port }
    | none => .returned (p.fail (ascii "invalid --port")).res
  | .peer =>
    let (value, took, p) := next a p
    .goesOn took { p with res.options.peers := p.res.options.peers ++ [value] }
  | .key =>
    let (value, took, p) := next a p
    .goesOn took { p with res.options.key := value, res.options.discover := true }
  | .allow =>
    let (id, took, p) := next a p
    if p.res.action = .error then .returned p.res
    else if ¬ isPeerId id then
      .returned (p.fail (ascii "--allow expects a 64-character hex peer id, got: " ++ id)).res
    else .goesOn took { p with res.options.allow := p.res.options.allow ++ [id] }
  | .discover => .goesOn false { p with res.options.discover := true }
  | .lan => .goesOn false { p with res.options.lanOnly := true, res.options.discover := true }
  | .name =>
    let (name, took, p) := next a p
    if p.res.action = .error then .returned p.res
    else if p.res.options.folders = [] then
      .returned (p.fail (ascii "--name must follow a directory (it names that folder)")).res
    else
      match folderNameFault name with
      | some why => .returned (p.fail (why ++ ascii ": '" ++ name ++ ascii "'")).res
      | none => .goesOn took (p.current fun f => { f with name })
  | .mirror => .goesOn false (p.current fun f => { f with mode := .mirror })
  | .source => .goesOn false (p.current fun f => { f with source := true })
  | .replica => .goesOn false (p.current fun f => { f with replica := true })
  | .conflict =>
    let (c, took, p) := next a p
    match policyOf c with
    | some conflict => .goesOn took (p.current fun f => { f with conflict })
    | none => .returned (p.fail (ascii "unknown --conflict policy: " ++ c)).res
  | .noDelete => .goesOn false (p.current fun f => { f with noDelete := true })
  | .noDelta => .goesOn false (p.current fun f => { f with noDelta := true })
  | .followSymlinks => .goesOn false (p.current fun f => { f with followSymlinks := true })
  | .ignore =>
    let (pattern, took, p) := next a p
    .goesOn took (p.current fun f => { f with ignores := f.ignores ++ [pattern] })
  | .ignoreFile =>
    let (ignoreFile, took, p) := next a p
    .goesOn took (p.current fun f => { f with ignoreFile })
  | .interval =>
    let (value, took, p) := next a p
    match readInterval value with
    | some interval => .goesOn took { p with res.options.interval := interval }
    | none => .returned (p.fail (ascii "invalid --interval")).res
  | .once => .goesOn false { p with res.options.once := true }
  | .dataDir =>
    let (dataDir, took, p) := next a p
    .goesOn took { p with res.options.dataDir := dataDir }
  | .noColor => .goesOn false { p with res.options.noColor := true }
  | .verbose => .goesOn false { p with res.options.verbosity := 2 }
  | .quiet => .goesOn false { p with res.options.verbosity := 0 }

def handle (a : Arg) (p : Parser) : Handled :=
  match optionNames.lookup a.arg with
  | some opt => handleOpt a p opt
  | none =>
    if a.arg.head? = some minusSign then .returned (p.fail (ascii "unknown option: " ++ a.arg)).res
    else .goesOn false (openFolder a.arg p)

/-- The loop over the arguments: what it returns, or where it ends. -/
def parseLoop : Parser → List Bytes → Except ParseResult Parser
  | p, [] => .ok p
  | p, arg :: rest =>
    match handle (splitArg arg rest.head?) p with
    | .returned r => .error r
    | .goesOn took p =>
      if p.res.action = .error then .error p.res
      else
        match took, rest with
        | true, _ :: rest => parseLoop p rest
        | _, rest => parseLoop p rest

/-- What is wrong with the roles of a folder. -/
def roleFault (f : FolderOptions) : Option Bytes :=
  let label := if f.name = [] then f.directory else f.name
  if f.mode = .mirror ∧ ¬ f.source ∧ ¬ f.replica then
    some (ascii "--mirror requires --source or --replica (" ++ label ++ ascii ")")
  else if f.source ∧ f.replica then
    some (ascii "--source and --replica are mutually exclusive (" ++ label ++ ascii ")")
  else if f.mode = .twoWay ∧ (f.source ∨ f.replica) then
    some (ascii "--source/--replica only apply with --mirror (" ++ label ++ ascii ")")
  else none

/-- The first explicit name that has been named before. -/
def sharedName (named : List Bytes) : List FolderOptions → Option Bytes
  | [] => none
  | f :: fs =>
    if f.name = [] then sharedName named fs
    else if named.contains f.name then some f.name
    else sharedName (f.name :: named) fs

/-- What follows the loop. -/
def finish (p : Parser) : ParseResult :=
  let folders := p.res.options.folders
  if folders = [] then (p.fail (ascii "missing <directory> to sync")).res
  else
    match folders.findSome? roleFault with
    | some msg => (p.fail msg).res
    | none =>
      match sharedName [] folders with
      | some name => (p.fail (ascii "two folders share the name '" ++ name ++ ascii "'")).res
      | none => p.res

def parseArgs (args : List Bytes) : ParseResult :=
  match parseLoop {} args with
  | .error r => r
  | .ok p => finish p

end Cli

end Rasync
