import GoFilesystem.Ftp.Machine
import GoFilesystem.Remote.Calls
import GoFilesystem.Remote.Names

/-!
# The FTP adapter and its server

One call of the adapter while nothing else goes on, with a server that keeps
directories and files.  The world of the call is the state of the adapter and the
server.  `random` are the sixteen bytes that the call draws.
-/

namespace GoFilesystem.Ftp

open Go Conc Posix Remote PathName

/-- `validateRoot`. -/
def validateRoot (root : Str) : Except Err Str := Remote.validateRoot "ftp" root

/-- What the constructor has checked. -/
structure Adapter.Valid (a : Adapter) : Prop where
  root : ∃ root, validateRoot root = .ok a.root
  maxList : 0 < a.maxList

theorem Adapter.Valid.isRoot {a : Adapter} (h : a.Valid) : IsRoot a.root :=
  let ⟨_, hroot⟩ := h.root
  isRoot_of_validateRoot hroot

def terms (faults : Bool) : Terms := client.terms faults

/-- The answers to `Store`.  If it fails, a part of the source may have been stored. -/
def Stores (faults : Bool) (l : Location) (source : Source) (v : Server) (r : Option Err)
    (v' : Server) : Prop :=
  ∃ tree, v' = { v with tree, uploads := v.uploads ++ [l] } ∧ match r with
    | none => source.Complete ∧ v.tree.lookup l ≠ some .directory ∧
      v.tree.Sets l (some (.file source.content)) tree
    | some err => (tree = v.tree ∨ (v.tree.lookup l ≠ some .directory ∧
        ∃ content, content <+: source.content ∧ v.tree.Sets l (some (.file content)) tree)) ∧
      (faults = false → isConnectionError err = false)

def serves (faults : Bool) (random : Str) (v : Server) : (c : Cmd) → c.Resp → Server → Prop
  | .stat _ name, (r : Except Err RemoteEntry), v' =>
    (terms faults).Stats (elements name) v r v'
  | .list _ name, (r : Except Err (List RemoteEntry)), v' =>
    (terms faults).Lists (elements name) v r v'
  | .makeDir _ name, (r : Option Err), v' =>
    (terms faults).Changes v (fun tree tree' ↦ tree.lookup (elements name) = none ∧
      tree.Sets (elements name) (some .directory) tree') r v'
  | .delete _ name, (r : Option Err), v' =>
    (terms faults).Changes v (fun tree tree' ↦
      (∃ content, tree.lookup (elements name) = some (.file content)) ∧
        tree.Sets (elements name) none tree') r v'
  | .rename _ source destination, (r : Option Err), v' =>
    (terms faults).Changes v (fun tree tree' ↦
      tree.Moves (elements source) (elements destination) tree') r v'
  | .store _ name _ source, (r : Option Err), v' => Stores faults (elements name) source v r v'
  | .random, (r : Except Err Str), v' =>
    v' = v ∧ match r with
      | .ok bytes => bytes = random
      | .error _ => faults = true
  | .connect _, (r : Except Err Session), v' => v' = v ∧ (faults = false → r.isOk = true)
  | _, _, v' => v' = v

/-- The call `t` on its own.  If there are faults, contexts may be done at any time. -/
def answers (faults : Bool) (random : Str) (t : Tid) : Answers sig (State × Server) :=
  runs.alone faults (fun _ ↦ serves faults random) t

/-- Nothing keeps a call from going on: the adapter is open, the context is not done,
and the locks are held by the call or by nobody. -/
abbrev Idle (ctx : Ctx) (opMu mu : Bool) (s : State) : Prop :=
  runs.Idle (fun s ↦ s.opMu.isSome = opMu) ctx mu s

variable {faults : Bool} {random : Str} {t : Tid} {w : State × Server} {ctx : Ctx}
  {opMu mu : Bool} {P live : Prop}

theorem served (faults : Bool) (random : Str) :
    runs.Served faults (fun _ ↦ serves faults random) id where
  own _ _ c _ _ hc := by
    cases c with
    | lstat | stat => exact nomatch hc
    | connect => exact Iff.rfl
    | _ => exact (and_iff_left trivial).symm
  lstat _ _ _ _ _ _ := ⟨fun h ↦ ⟨h.1, rfl, h.2⟩, fun h ↦ ⟨h.1, h.2.2⟩⟩
  stat _ _ _ _ _ _ := ⟨fun h ↦ ⟨h.1, rfl, h.2⟩, fun h ↦ ⟨h.1, h.2.2⟩⟩
  missing := ⟨.sentinel .fileUnavailable, rfl, rfl⟩

/-- The functions of the session leave `opMu` alone. -/
theorem assumes (opMu : Bool) (hquiet : P → faults = false) (hlive : live → P) :
    runs.Assumes faults (fun s ↦ s.opMu.isSome = opMu) P live :=
  ⟨fun _ _ h ↦ h, hquiet, hlive⟩

section Locks

variable (hquiet : P → faults = false) (hlive : live → P)
include hquiet hlive

theorem ensures_opLock (h : P → Idle ctx false mu w.1) :
    Ensures (answers faults random t) live (perform .opLock) w fun _ w' ↦
      runs.Goes (fun s ↦ s.opMu.isSome = true) P ctx mu w w' := by
  refine (Remote.Client.Runs.ensures_step (X := fun _ ↦ True) (assumes false hquiet hlive)
    (fun _ _ _ h ↦ h) (fun s _ hs ↦ ?_) ?_ h).mono fun _ _ h ↦ h.1
  · exact ⟨(), _, if_pos (by simpa using hs.rest), rfl⟩
  · intro r s s' _ hs happly _
    obtain ⟨-, rfl⟩ := of_ite_some happly
    exact ⟨⟨hs.toIdle, rfl⟩, trivial⟩

theorem ensures_opUnlock (h : P → Idle ctx true mu w.1) :
    Ensures (answers faults random t) live (perform .opUnlock) w fun _ w' ↦
      runs.Goes (fun s ↦ s.opMu.isSome = false) P ctx mu w w' := by
  refine (Remote.Client.Runs.ensures_step (X := fun _ ↦ True) (assumes true hquiet hlive)
    (fun _ _ _ h ↦ h) (fun s _ hs ↦ ?_) ?_ h).mono fun _ _ h ↦ h.1
  · exact ⟨(), _, if_pos (Option.isSome_iff_ne_none.mp hs.rest), rfl⟩
  · intro r s s' _ hs happly _
    obtain ⟨-, rfl⟩ := of_ite_some happly
    exact ⟨⟨hs.toIdle, rfl⟩, trivial⟩

end Locks

end GoFilesystem.Ftp
