import Rasync.Spec.Walk

/-! Where `finalize_incoming` of `net/sync_session.cpp` leaves a file in a tree with links:
`resolve_link`, and the rename onto what it returns. -/

namespace Rasync

/-- `FileMeta::kExecutable` -/
def kExecutable : UInt32 := 0x1

/-- What stands under these names, through directories a scan descends into. -/
def lookupNode (follow : Bool) : Listing → List Bytes → Option Node
  | _, [] => none
  | entries, [name] => entries.lookup name
  | entries, name :: names =>
    ((entries.lookup name).bind (Node.asDir follow)).bind fun entries => lookupNode follow entries names

def nodeAt (follow : Bool) (root : Listing) (path : Path) : Option Node :=
  lookupNode follow root (split slash path)

/-- What stands at a path once a file is moved onto it. With links followed the file goes
behind a link that leads somewhere; a link that leads nowhere is replaced, as every link is
with links not followed. An empty directory in the way is removed before the second rename;
`none`: it is not empty, and that rename fails too. -/
def landOn (follow : Bool) (f : File) : Option Node → Option Node
  | none => some (.file f)
  | some (.file _) => some (.file f)
  | some (.dir entries) => if entries.isEmpty then some (.file f) else none
  | some (.link asDir target) =>
    if follow then
      match target with
      | none => some (.file f)
      | some (.file _) => some (.link asDir (some (.file f)))
      | some (.dir entries) => if entries.isEmpty then some (.link false (some (.file f))) else none
      | some (.link _ _) => none
    else some (.file f)

end Rasync
