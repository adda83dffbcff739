import GoFilesystem.Remote.Calls
import GoFilesystem.Remote.Names
import GoFilesystem.Sftp.Machine

/-!
# The SFTP adapter and its server

One call of the adapter while nothing else goes on, with a server that keeps
directories and files.  The world of the call is the state of the adapter, the server
with the files that are open for writing, and what the caller's source has returned.
`random` are the sixteen bytes that the call draws.
-/

namespace GoFilesystem.Sftp

open Go Conc Posix Remote PathName

/-- `validateRoot`. -/
def validateRoot (root : Str) : Except Err Str := Remote.validateRoot "sftp" root

/-- What the constructor has checked. -/
structure Adapter.Valid (a : Adapter) : Prop where
  root : ∃ root, validateRoot root = .ok a.root
  maxList : 0 < a.maxList

theorem Adapter.Valid.isRoot {a : Adapter} (h : a.Valid) : IsRoot a.root :=
  let ⟨_, hroot⟩ := h.root
  isRoot_of_validateRoot hroot

def terms (faults : Bool) : Terms := client.terms faults

/-- The server and the caller's source. -/
structure Outside extends Server where
  /-- Where the files are that are open for writing. -/
  files : File → Option Location := fun _ ↦ none
  /-- History: the bytes that the source has returned. -/
  received : Str := []
  /-- History: whether the source has returned `io.EOF`. -/
  ended : Bool := false

/-- A change of the server alone. -/
def Outside.Serves (v : Outside) (P : Server → Prop) (v' : Outside) : Prop :=
  ∃ server, v' = { v with toServer := server } ∧ P server

/-- The answers to `OpenFile` with the flags of a new file. -/
def Creates (faults : Bool) (session : Session) (l : Location) (v : Outside) (r : Except Err Nat)
    (v' : Outside) : Prop :=
  match r with
  | .ok handle => ∃ tree, v.tree.lookup l = none ∧ v.tree.Sets l (some (.file [])) tree ∧
    v' = { v with
      tree
      uploads := v.uploads ++ [l]
      files := Function.update v.files { session, handle } (some l) }
  | .error err => ∃ tree, v' = { v with tree } ∧
    (tree = v.tree ∨
      (faults = true ∧ v.tree.lookup l = none ∧ v.tree.Sets l (some (.file [])) tree)) ∧
    (faults = false → isConnectionError err = false)

/-- The answers to a write to a file: the bytes it counts are stored, and if it fails,
any part of them may be. -/
def Appends (file : File) (bytes : Str) (v : Outside) (r : Nat × Option Err) (v' : Outside) :
    Prop :=
  ∃ tree, v' = { v with tree } ∧
    ((r.2 ≠ none ∧ tree = v.tree) ∨
      ∃ l content stored, v.files file = some l ∧ v.tree.lookup l = some (.file content) ∧
        stored <+: bytes ∧ v.tree.Sets l (some (.file (content ++ stored))) tree ∧
        (r.2 = none → stored = bytes.take r.1))

/-- The answers to `MkdirAll`, which may stop on the way. -/
def MakesAll (faults : Bool) (l : Location) (v : Server) (r : Option Err) (v' : Server) : Prop :=
  ∃ tree, v' = { v with tree } ∧ v.tree.Makes l tree ∧ match r with
    | none => tree.lookup l = some .directory
    | some err => faults = false → isConnectionError err = false

/-- What a rename does.  It is left open what becomes of a directory, except that none comes
into itself. -/
def Renames (oldName newName : Str) (tree tree' : FileTree) : Prop :=
  (tree.lookup (elements oldName) = some .directory ∧
    ¬elements oldName <+: elements (dir newName)) ∨
  tree.Moves (elements oldName) (elements newName) tree'

/-- What a server and the source answer.  A directory is not read once the context is
done. -/
def serves (faults : Bool) (random : Str) (s : State) (v : Outside) :
    (c : Cmd) → c.Resp → Outside → Prop
  | .stat _ name, (r : Except Err Info), v' | .lstat _ name, (r : Except Err Info), v' =>
    v.Serves ((terms faults).Stats (elements name) v.toServer r) v'
  | .readDir _ ctx name, (r : Except Err (List Info)), v' =>
    v.Serves ((terms faults).Lists (elements name) v.toServer r) v' ∨
      (s.ctx ctx ≠ none ∧ v' = v ∧ ∃ err, r = .error err ∧ isConnectionError err = false)
  | .remove _ name, (r : Option Err), v' =>
    v.Serves ((terms faults).Changes v.toServer (fun tree tree' ↦
      tree.lookup (elements name) ≠ none ∧ tree.Sets (elements name) none tree') r) v'
  | .mkdirAll _ name, (r : Option Err), v' =>
    v.Serves (MakesAll faults (elements name) v.toServer r) v'
  | .rename _ oldName newName, (r : Option Err), v' =>
    v.Serves ((terms faults).Changes v.toServer (fun tree tree' ↦
      tree.lookup (elements newName) = none ∧
        Renames oldName newName tree tree') r) v'
  | .posixRename _ oldName newName, (r : Option Err), v' =>
    v.Serves ((terms faults).Changes v.toServer (Renames oldName newName) r) v'
  | .create session name, (r : Except Err Nat), v' =>
    Creates faults session (elements name) v r v'
  | .writeFile file bytes, (r : Nat × Option Err), v' => Appends file bytes v r v'
  | .source, (r : Str × Option Err), v' =>
    v' = { v with
      received := v.received ++ r.1
      ended := decide (r.2 = some (.sentinel .eof)) }
  | .random, (r : Except Err Str), v' =>
    v' = v ∧ match r with
      | .ok bytes => bytes = random
      | .error _ => faults = true
  | .connect _, (r : Except Err Session), v' => v' = v ∧ (faults = false → r.isOk = true)
  | _, _, v' => v' = v

/-- The call `t` on its own.  If there are faults, contexts may be done at any time. -/
def answers (faults : Bool) (random : Str) (t : Tid) : Answers sig (State × Outside) :=
  runs.alone faults (serves faults random) t

/-- Nothing keeps a call from going on: the adapter is open, the context is not done,
and the lock is held by the call or by nobody. -/
abbrev Idle (ctx : Ctx) (mu : Bool) (s : State) : Prop := runs.Idle (fun _ ↦ True) ctx mu s

/-- An answer that changes nothing of the server changes nothing. -/
theorem Outside.serves_iff {v v' : Outside} {P : Server → Prop}
    (hP : ∀ server, P server → server = v.toServer) : v.Serves P v' ↔ v' = v ∧ P v.toServer := by
  refine ⟨?_, fun h ↦ ⟨v.toServer, h⟩⟩
  rintro ⟨server, rfl, hserver⟩
  obtain rfl := hP server hserver
  exact ⟨rfl, hserver⟩

theorem served (faults : Bool) (random : Str) :
    runs.Served faults (serves faults random) Outside.toServer where
  own _ _ c _ _ hc := by
    cases c with
    | lstat | stat => exact nomatch hc
    | connect => exact Iff.rfl
    | _ => exact (and_iff_left trivial).symm
  lstat _ _ _ _ _ _ := Outside.serves_iff fun _ h ↦ h.1
  stat _ _ _ _ _ _ := Outside.serves_iff fun _ h ↦ h.1
  missing := ⟨.sentinel .notExist, rfl, rfl⟩

theorem assumes {faults : Bool} {P live : Prop} (hquiet : P → faults = false) (hlive : live → P) :
    runs.Assumes faults (fun _ ↦ True) P live :=
  ⟨fun _ _ h ↦ h, hquiet, hlive⟩

end GoFilesystem.Sftp
