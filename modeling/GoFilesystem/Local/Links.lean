import GoFilesystem.Conc.Extend
import GoFilesystem.Local.Adapter
import GoFilesystem.Posix.Links
import GoFilesystem.Remote.Names

/-!
# A root with symbolic links

How a root answers the commands of the adapter if it holds directories, files and
symbolic links (`Posix.LinkTree`).  What `Lstat` and `Stat` say is a function of the
tree, and so is what `checkSymlinks` makes of it (`verdict`).
-/

namespace GoFilesystem.Local

open Go Conc Posix

def pathError (op : String) (name : Str) (err : Err) : Err := .wrap (op ++ " %s: %w") [name] err

def unresolvedErr : Unresolved → Err
  | .missing => .sentinel .notExist
  | .notDirectory => .new "not a directory" []
  | .tooManyLinks => .new "too many levels of symbolic links" []
  | .escapes => .new "path escapes from parent" []

def infoOf (item : Item) : Info where
  directory := item.kind = .directory
  link := item.kind.isLink
  size := item.size
  modified := item.modified

/-- What `Stat` or `Lstat` returns. -/
def described (op : String) (name : Str) : Except Unresolved Item → Except Err Info
  | .error e => .error (pathError op name (unresolvedErr e))
  | .ok item => .ok (infoOf item)

/-- What a command leaves if it succeeds with an effect, and if it fails. -/
def onSuccess (T T' : LinkTree) (effect : Prop) : Option Err → Prop
  | none => effect
  | some _ => T.Same T'

/-- How a root answers.  Its names are resolved beneath it, and links are followed as
`f` says.  A context may be cancelled at any time if `cancelled` says so.  The bytes of
files are of no interest here, so reads and writes of open files may return anything. -/
def answers (f : Following) (cancelled : Ctx → Bool) : Answers sig LinkTree
  | T, .ctxErr ctx, (r : Option CtxErr), T' => T' = T ∧ (cancelled ctx = false → r = none)
  | T, .lstat name, (r : Except Err Info), T' =>
    T' = T ∧ r = described "lstat" name (T.lstat f name)
  | T, .stat name, (r : Except Err Info), T' =>
    T' = T ∧ r = described "stat" name (T.stat f name)
  | T, .mkdir name _, (r : Option Err), T' => onSuccess T T' (∃ l, T.entry f name = .ok l ∧
      (T.kindAt l ≠ none ∧ T.Same T' ∨ T.kindAt l = none ∧ T.Puts l (some .directory) T')) r
  | T, .create name, (r : Except Err Nat), T' => onSuccess T T' (∃ l, T.entry f name = .ok l ∧
      T.kindAt l = none ∧ T.Puts l (some .file) T') (failure r)
  | T, .link a b, (r : Option Err), T' => onSuccess T T' (∃ l m kind, T.entry f a = .ok l ∧
      T.entry f b = .ok m ∧ T.kindAt l = some kind ∧ T.kindAt m = none ∧ T.Puts m (some kind) T') r
  | T, .rename a b, (r : Option Err), T' => onSuccess T T' (∃ l m, T.entry f a = .ok l ∧
      T.entry f b = .ok m ∧ T.kindAt l ≠ none ∧ T.Moves l m T') r
  | T, .renameNoReplace a b, (r : Option Err), T' => onSuccess T T' (∃ l m, T.entry f a = .ok l ∧
      T.entry f b = .ok m ∧ T.kindAt l ≠ none ∧ T.kindAt m = none ∧ T.Moves l m T') r
  | T, .remove name, (r : Option Err), T' => onSuccess T T' (∃ l, T.entry f name = .ok l ∧
      T.kindAt l ≠ none ∧ T.Puts l none T') r
  | T, .openFile name _, (r : Option Err), T' => T.Same T' ∧
      (r = none → ∃ l, T.resolve f name = .ok l)
  | T, _, _, T' => T.Same T'

/-! ## The check -/

variable {f : Following} {cancelled : Ctx → Bool} {T : LinkTree} {a : Adapter}

/-- What the loop of `checkSymlinks` returns, by what `Lstat` says of each name. -/
def verdict (path : Path) (lstat : Str → Except Err Info) : List Str → Option Err
  | [] => none
  | name :: names =>
    match lstat name with
    | .error err => if err.is .notExist then none else some (mapError path err)
    | .ok info =>
      if info.link then some (.new "local: symbolic link %q is denied" [name])
      else verdict path lstat names

theorem ensures_checkSymlinksFrom_eq (path : Path) (names : List Str) :
    Ensures (answers f cancelled) True (checkSymlinksFrom path names) T
      fun r T' ↦ T' = T ∧
        r = verdict path (fun name ↦ described "lstat" name (T.lstat f name)) names := by
  induction names with
  | nil => exact ⟨rfl, rfl⟩
  | cons name names ih =>
      refine Ensures.bind (Ensures.command (fun _ ↦ ⟨_, T, rfl, rfl⟩) fun _ _ h ↦ h) ?_
      rintro _ _ ⟨rfl, rfl⟩
      unfold verdict
      rcases described "lstat" name _ with err | info
      · exact ⟨rfl, rfl⟩
      · dsimp only
        cases info.link with
        | true => exact ⟨rfl, rfl⟩
        | false => exact ih

theorem verdict_congr {path : Path} {lstat lstat' : Str → Except Err Info} {names : List Str}
    (h : ∀ name ∈ names, lstat name = lstat' name) :
    verdict path lstat names = verdict path lstat' names := by
  induction names with
  | nil => rfl
  | cons name names ih =>
      unfold verdict
      rw [h name List.mem_cons_self, ih fun x hx ↦ h x (List.mem_cons_of_mem name hx)]

end GoFilesystem.Local
