import GoFilesystem.Conc.Solo
import GoFilesystem.Go.Fs

/-!
# The traversal `fs.WalkDir`

A program that calls a function for each file beneath a root, directories before what
is in them and the entries of a directory in the order in which `ReadDir` returns
them.  The function is called a second time for a directory that cannot be read.  It
may end the walk by an error; `SkipDir` skips a directory, or what is left of the one
a file is in.

The recursion of the source is a loop over a stack here: for each directory that is
being walked its name and the entries that are left of it, the innermost first.
`WalkFS.walk` is the recursion, with a function that records the files.  With this
function the loop returns what the recursion returns (`WalkFS.eval_walkDir`).
-/

namespace GoFilesystem.Go

open Conc

variable {S : Sig} {ε δ τ σ : Type}

/-- What the function returns: nil, one of the two values that are not errors to the
walk, or an error. -/
inductive WalkResult (δ : Type) where
  | ok
  | skipDir
  | skipAll
  | fail (err : δ)

/-- What the function is called with: a file, or what could not be read and why.  The
root of the walk has no entry if it could not be looked at. -/
inductive WalkCall (τ ε : Type) where
  | file (entry : τ)
  | failed (entry : Option τ) (err : ε)

/-- A file system that can be walked: its entries are of type `τ`, its errors of type
`ε`. -/
structure Walkable (S : Sig) (ε τ : Type) where
  stat : Str → Prog S (Except ε τ)
  /-- The entries that were read, and the error. -/
  readDir : Str → Prog S (List τ × Option ε)
  name : τ → Str
  isDir : τ → Bool

namespace Walkable

def childName (fsys : Walkable S ε τ) (name : Str) (entry : τ) : Str :=
  PathName.join [name, fsys.name entry]

variable (fsys : Walkable S ε τ) (fn : Str → WalkCall τ ε → σ → Prog S (WalkResult δ × σ))

/-- `walkDir` of one file: what it returns, or the entries it goes on with. -/
def visit (name : Str) (entry : τ) (s : σ) : Prog S ((WalkResult δ ⊕ List τ) × σ) := do
  match ← fn name (.file entry) s with
  | (.ok, s) =>
    if !fsys.isDir entry then return (.inl .ok, s)
    else
      match ← fsys.readDir name with
      | (entries, none) => return (.inr entries, s)
      | (entries, some err) =>
        match ← fn name (.failed (some entry) err) s with
        | (.ok, s) => return (.inr entries, s)
        | (.skipDir, s) => return (.inl .ok, s)
        | (result, s) => return (.inl result, s)
  | (.skipDir, s) => return (.inl (if fsys.isDir entry then .ok else .skipDir), s)
  | (result, s) => return (.inl result, s)

def walkNext : List (Str × List τ) × σ → Prog S ((List (Str × List τ) × σ) ⊕ (WalkResult δ × σ))
  | ([], s) => return .inr (.ok, s)
  | ((_, []) :: frames, s) => return .inl (frames, s)
  | ((name, entry :: entries) :: frames, s) => do
    let child := fsys.childName name entry
    match ← fsys.visit fn child entry s with
    | (.inr children, s) => return .inl ((child, children) :: (name, entries) :: frames, s)
    | (.inl .ok, s) => return .inl ((name, entries) :: frames, s)
    | (.inl .skipDir, s) => return .inl (frames, s)
    | (.inl result, s) => return .inr (result, s)

/-- The walk from the root on: what the last call of the function returned. -/
def walk (root : Str) (s : σ) : Prog S (WalkResult δ × σ) := do
  match ← fsys.stat root with
  | .error err => fn root (.failed none err) s
  | .ok info =>
    match ← fsys.visit fn root info s with
    | (.inl result, s) => return (result, s)
    | (.inr entries, s) => Prog.loop (fsys.walkNext fn) ([(root, entries)], s)

/-- `fs.WalkDir`: the error it returns. -/
def walkDir (root : Str) (s : σ) : Prog S (Option δ × σ) := do
  match ← fsys.walk fn root s with
  | (.fail err, s) => return (some err, s)
  | (_, s) => return (none, s)

end Walkable

/-! ## The recursion and the loop -/

namespace WalkFS

inductive Op where
  | stat (name : Str)
  | readDir (name : Str)

def ops (τ ε : Type) : Sig where
  Cmd := Op
  Resp
    | .stat _ => Except ε τ
    | .readDir _ => Except ε (List τ)

variable {E : Type}

def answers (fsys : WalkFS E σ τ ε) (env : E) : Answers (ops τ ε) σ
  | s, .stat name, r, s' => fsys.stat name env s = some (r, s')
  | s, .readDir name, r, s' => fsys.readDir name env s = some (r, s')

def walkable (fsys : WalkFS E σ τ ε) : Walkable (ops τ ε) ε τ where
  stat name := .call (.stat name) .ret
  readDir name := .call (.readDir name) fun
    | .error err => .ret ([], some err)
    | .ok entries => .ret (entries, none)
  name := fsys.name
  isDir := fsys.isDir

abbrev Walk (τ ε : Type) := Prog (ops τ ε) (WalkResult ε × List (Str × τ))

/-- The function of `walk`. -/
def record (name : Str) : WalkCall τ ε → List (Str × τ) → Walk τ ε
  | .file entry, visits => .ret (.ok, visits ++ [(name, entry)])
  | .failed _ err, _ => .ret (.fail err, [])

/-- What follows a part of the walk that returns the given result. -/
def after (visits : List (Str × τ)) (next : List (Str × τ) → Walk τ ε) :
    Except ε (List (Str × τ)) → Walk τ ε
  | .ok new => next (visits ++ new)
  | .error err => .ret (.fail err, [])

variable (fsys : WalkFS E σ τ ε) (env : E)

def walkFrames (frames : List (Str × List τ)) (visits : List (Str × τ)) : Walk τ ε :=
  Prog.loop (fsys.walkable.walkNext record) (frames, visits)

/-- The first program in the first state goes on as the second in the second. -/
def Leads (p : Walk τ ε) (s : σ) (q : Walk τ ε) (s' : σ) : Prop :=
  ∀ out s'', Eval (fsys.answers env) q s' out s'' → Eval (fsys.answers env) p s out s''

variable {fsys env} {depth : Nat} {name root : Str} {d : τ} {dirs : List τ} {s s' : σ}
  {visits : List (Str × τ)} {frames : List (Str × List τ)} {r : Except ε (List (Str × τ))}

theorem leads_walkEach (hwalk : ∀ name d dirs frames visits s r s',
      fsys.walkDir depth (PathName.join [name, fsys.name d]) d env s = some (r, s') →
      fsys.Leads env (fsys.walkFrames ((name, d :: dirs) :: frames) visits) s
        (after visits (fsys.walkFrames ((name, dirs) :: frames)) r) s')
    (h : fsys.walkEach (fsys.walkDir depth) name dirs env s = some (r, s')) :
    fsys.Leads env (fsys.walkFrames ((name, dirs) :: frames) visits) s
      (after visits (fsys.walkFrames frames) r) s' := by
  intro out s'' heval
  induction dirs generalizing visits s r s' with
  | nil =>
      cases h
      rw [after, List.append_nil] at heval
      exact .iter heval
  | cons d dirs ih =>
      obtain ⟨⟨r₁, s₁⟩, h₁, hrest⟩ := Option.bind_eq_some_iff.mp h
      have hleads := hwalk name d dirs frames visits s r₁ s₁ h₁
      cases r₁ with
      | error err =>
          cases hrest
          exact hleads out s'' heval
      | ok new =>
          obtain ⟨⟨r₂, s₂⟩, h₂, hrest⟩ := Option.bind_eq_some_iff.mp hrest
          refine hleads out s'' (ih h₂ ?_)
          cases r₂ <;> cases hrest <;> simpa [after] using heval

/-- A visit, with what follows it. -/
theorem leads_visit {k : (WalkResult ε ⊕ List τ) × List (Str × τ) → Walk τ ε}
    (herr : ∀ err, k (.inl (.fail err), []) = .ret (.fail err, []))
    (hdir : ∀ dirs visits s r, fsys.walkEach (fsys.walkDir depth) name dirs env s = some (r, s') →
      fsys.Leads env (k (.inr dirs, visits)) s (after visits (fun v ↦ k (.inl .ok, v)) r) s')
    (h : fsys.walkDir (depth + 1) name d env s = some (r, s')) :
    fsys.Leads env (Prog.bind (fsys.walkable.visit record name d visits) k) s
      (after visits (fun v ↦ k (.inl .ok, v)) r) s' := by
  intro out s'' heval
  rw [walkDir] at h
  split at h
  next hd =>
    have hvisit : fsys.walkable.visit record name d visits = .call (.readDir name) _ :=
      if_neg (by simpa [walkable] using hd)
    obtain ⟨⟨r₁, s₁⟩, h₁, hrest⟩ := Option.bind_eq_some_iff.mp h
    rw [hvisit]
    refine .call h₁ ?_
    cases r₁ with
    | error err =>
        cases hrest
        rw [after, ← herr] at heval
        exact heval
    | ok dirs =>
        obtain ⟨⟨r₂, s₂⟩, h₂, hrest⟩ := Option.bind_eq_some_iff.mp hrest
        have hleads := hdir dirs (visits ++ [(name, d)]) s₁ r₂
        cases r₂ <;> cases hrest <;> exact hleads h₂ out s'' (by simpa [after] using heval)
  next hd =>
    have hvisit : fsys.walkable.visit record name d visits = .ret (.inl .ok, _) :=
      if_pos (by simpa [walkable] using hd)
    cases h
    rw [hvisit]
    exact heval

theorem leads_walkDir
    (h : fsys.walkDir depth (PathName.join [name, fsys.name d]) d env s = some (r, s')) :
    fsys.Leads env (fsys.walkFrames ((name, d :: dirs) :: frames) visits) s
      (after visits (fsys.walkFrames ((name, dirs) :: frames)) r) s' := by
  induction depth generalizing name d dirs frames visits s r s' with
  | zero => cases h
  | succ depth ih =>
      intro out s'' heval
      refine .iter ?_
      rw [Prog.unfold, Walkable.walkNext]
      refine (Prog.bind_assoc ..).symm ▸ leads_visit (fun _ ↦ rfl) ?_ h out s'' heval
      exact fun dirs visits s r ↦ leads_walkEach fun _ _ _ _ _ _ _ _ ↦ ih

/-- The loop returns what the recursion returns. -/
theorem eval_walkDir (h : fsys.walk depth root env s = some (r, s')) :
    Eval (fsys.answers env) (fsys.walkable.walkDir record root []) s
      (match r with
        | .ok visits => (none, visits)
        | .error err => (some err, [])) s' := by
  suffices hwalk : Eval (fsys.answers env) (fsys.walkable.walk record root []) s
      (match r with
        | .ok visits => (.ok, visits)
        | .error err => (.fail err, [])) s' by
    cases r <;> exact hwalk.bind .ret
  obtain ⟨⟨info, s₁⟩, hstat, h⟩ := Option.bind_eq_some_iff.mp h
  cases info with
  | error err =>
      cases h
      exact .call hstat .ret
  | ok info =>
      cases depth with
      | zero => cases h
      | succ depth =>
          refine .call hstat (leads_visit (fun _ ↦ rfl) ?_ h _ s' (by cases r <;> exact .ret))
          intro dirs visits s r hdirs out s'' heval
          refine leads_walkEach (fun _ _ _ _ _ _ _ _ ↦ leads_walkDir) hdirs out s'' ?_
          cases r with
          | error err => exact heval
          | ok new => exact .iter heval

end WalkFS

end GoFilesystem.Go
