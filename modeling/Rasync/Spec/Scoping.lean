import Rasync.Spec.Cli

/-! A command line as a list of directories and options, read without regard to what they
do, and the rule of `app/cli.h` for which option is for which folder. -/

namespace Rasync

namespace Cli

inductive FolderOption where
  | name (label : Bytes)
  | mirror
  | source
  | replica
  | conflict (policy : Bytes)
  | noDelete
  | noDelta
  | followSymlinks
  | ignore (pattern : Bytes)
  | ignoreFile (path : Bytes)
  deriving DecidableEq

inductive NodeOption where
  | port (text : Bytes)
  | peer (spec : Bytes)
  | key (secret : Bytes)
  | allow (id : Bytes)
  | discover
  | lan
  | interval (text : Bytes)
  | once
  | dataDir (path : Bytes)
  | noColor
  | verbose
  | quiet
  deriving DecidableEq

inductive Item where
  | directory (path : Bytes)
  | folder (o : FolderOption)
  | node (o : NodeOption)
  deriving DecidableEq

namespace Opt

/-- An option without a value. -/
def flag : Opt → Option Item
  | .discover => some (.node .discover)
  | .lan => some (.node .lan)
  | .once => some (.node .once)
  | .noColor => some (.node .noColor)
  | .verbose => some (.node .verbose)
  | .quiet => some (.node .quiet)
  | .mirror => some (.folder .mirror)
  | .source => some (.folder .source)
  | .replica => some (.folder .replica)
  | .noDelete => some (.folder .noDelete)
  | .noDelta => some (.folder .noDelta)
  | .followSymlinks => some (.folder .followSymlinks)
  | .help | .version | .port | .peer | .key | .allow | .name | .conflict | .ignore | .ignoreFile | .interval | .dataDir =>
    none

/-- An option with its value. -/
def valued : Opt → Option (Bytes → Item)
  | .port => some fun text => .node (.port text)
  | .peer => some fun spec => .node (.peer spec)
  | .key => some fun secret => .node (.key secret)
  | .allow => some fun id => .node (.allow id)
  | .interval => some fun text => .node (.interval text)
  | .dataDir => some fun path => .node (.dataDir path)
  | .name => some fun label => .folder (.name label)
  | .conflict => some fun policy => .folder (.conflict policy)
  | .ignore => some fun pattern => .folder (.ignore pattern)
  | .ignoreFile => some fun path => .folder (.ignoreFile path)
  | .help | .version | .discover | .lan | .mirror | .source | .replica | .noDelete | .noDelta | .followSymlinks | .once
  | .noColor | .verbose | .quiet => none

end Opt

/-- The value at hand: behind a `=`, or else the next argument, which is then taken. -/
def Arg.value (a : Arg) : Option (Bytes × Bool) :=
  match a.inline, a.following with
  | some value, _ => some (value, false)
  | none, some value => some (value, true)
  | none, none => none

/-- One argument, and whether the next one is its value. -/
def readItem (a : Arg) : Option (Item × Bool) :=
  match optionNames.lookup a.arg with
  | some opt =>
    match opt.flag, opt.valued with
    | some item, _ => some (item, false)
    | none, some item => a.value.map fun v => (item v.1, v.2)
    | none, none => none
  | none => if a.arg.head? = some minusSign then none else some (.directory a.arg, false)

def items : List Bytes → Option (List Item)
  | [] => some []
  | arg :: rest =>
    match readItem (splitArg arg rest.head?) with
    | none => none
    | some (item, took) =>
      match took, rest with
      | true, _ :: rest => (items rest).map (item :: ·)
      | _, rest => (items rest).map (item :: ·)

namespace Item

def isDirectory : Item → Bool
  | .directory _ => true
  | .folder _ | .node _ => false

def directory? : Item → Option Bytes
  | .directory path => some path
  | .folder _ | .node _ => none

def folder? : Item → Option FolderOption
  | .folder o => some o
  | .directory _ | .node _ => none

def node? : Item → Option NodeOption
  | .node o => some o
  | .directory _ | .folder _ => none

end Item

/-- The folder options up to the next directory. -/
def scope (its : List Item) : List FolderOption := (its.takeWhile fun it => !it.isDirectory).filterMap Item.folder?

/-- Each directory with the folder options between it and the next one. -/
def sections : List Item → List (Bytes × List FolderOption)
  | [] => []
  | .directory path :: its => (path, scope its) :: sections its
  | .folder _ :: its | .node _ :: its => sections its

def FolderOption.apply (f : FolderOptions) : FolderOption → FolderOptions
  | .name label => { f with name := label }
  | .mirror => { f with mode := .mirror }
  | .source => { f with source := true }
  | .replica => { f with replica := true }
  | .conflict policy => { f with conflict := (policyOf policy).getD f.conflict }
  | .noDelete => { f with noDelete := true }
  | .noDelta => { f with noDelta := true }
  | .followSymlinks => { f with followSymlinks := true }
  | .ignore pattern => { f with ignores := f.ignores ++ [pattern] }
  | .ignoreFile path => { f with ignoreFile := path }

def NodeOption.apply (o : Options) : NodeOption → Options
  | .port text => { o with port := (readPort text).getD o.port }
  | .peer spec => { o with peers := o.peers ++ [spec] }
  | .key secret => { o with key := secret, discover := true }
  | .allow id => { o with allow := o.allow ++ [id] }
  | .discover => { o with discover := true }
  | .lan => { o with lanOnly := true, discover := true }
  | .interval text => { o with interval := (readInterval text).getD o.interval }
  | .once => { o with once := true }
  | .dataDir path => { o with dataDir := path }
  | .noColor => { o with noColor := true }
  | .verbose => { o with verbosity := 2 }
  | .quiet => { o with verbosity := 0 }

/-- The options of a folder: those before the first directory and its own, in order. -/
def folderOf (leading : List FolderOption) (s : Bytes × List FolderOption) : FolderOptions :=
  { (leading ++ s.2).foldl FolderOption.apply {} with directory := s.1 }

/-- The node-level options of a line, in order, wherever they stand. -/
def nodeOptions (its : List Item) : Options := (its.filterMap Item.node?).foldl NodeOption.apply {}

/-- The line is run with these options. -/
def Accepts (args : List Bytes) (o : Options) : Prop := (parseArgs args).action = .run ∧ (parseArgs args).options = o

instance (args : List Bytes) (o : Options) : Decidable (Accepts args o) := inferInstanceAs (Decidable (_ ∧ _))

end Cli

end Rasync
