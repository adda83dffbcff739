import GoFilesystem.Conc.Prog
import GoFilesystem.Contracts
import GoFilesystem.Go.PathName

/-!
# What the adapters for servers share

`ftp.go` and `sftp.go` hold a session behind a mutex, reconnect once, look for links and
walk directories in the same way.  Here these functions are written once, over commands
that a `Client` reads as those of an adapter: the FTP adapter ends a session with `Quit`
and the SFTP adapter with `Close`, and so on.  The adapters have them under their own
names.
-/

namespace GoFilesystem.Remote

open Go Conc PathName

abbrev Session := Nat

abbrev Ctx := Nat

/-- What a server says of an object: `remoteEntry`, or `fs.FileInfo`. -/
structure Child where
  name : Str := []
  size : Nat := 0
  modified : Time := 0
  directory : Bool := false
  link : Bool := false
deriving DecidableEq, Inhabited

inductive Cmd where
  /-- `ctx.Err()`. -/
  | ctxErr (ctx : Ctx)
  | lock
  | unlock
  | loadClosed
  | storeClosed
  | loadSession
  | storeSession (session : Option Session)
  /-- `a.connector(ctx)`. -/
  | connect (ctx : Ctx)
  /-- `Quit`, or `Close`. -/
  | release (session : Session)
  /-- A look at a name that does not follow links. -/
  | lstat (session : Session) (name : Str)
  | stat (session : Session) (name : Str)

@[reducible] def Cmd.Resp : Cmd → Type
  | .ctxErr _ => Option CtxErr
  | .loadClosed => Bool
  | .loadSession => Option Session
  | .connect _ => Except Err Session
  | .release _ => Option Err
  | .lstat _ _ | .stat _ _ => Except Err Child
  | .lock | .unlock | .storeClosed | .storeSession _ => Unit

@[reducible] def sig : Sig := ⟨Cmd, Cmd.Resp⟩

/-! ## Names and limits -/

/-- `remotePath`, beneath a root. -/
def remoteName (root : Str) (path : Path) : Str :=
  if path.isRoot then root else join [root, path.value]

/-- `effectiveListLimit`. -/
def effectiveListLimit (requested maximum : Int) : Int :=
  if requested = 0 then maximum else min requested maximum

theorem effectiveListLimit_pos {requested maximum : Int} (hrequested : 0 ≤ requested)
    (hmaximum : 0 < maximum) : 0 < effectiveListLimit requested maximum := by
  unfold effectiveListLimit
  split <;> omega

def temporaryName (random : Str) : Str := .lit ".filesystem-" ++ hexEncode random ++ .lit ".tmp"

/-- `temporaryPath`, once the random bytes are read. -/
def temporaryPath (directory random : Str) : Str := join [directory, temporaryName random]

/-- The names that `rejectLink` or `rejectSymlinks` looks at: those of a path and of its
parents. -/
def linkCandidates (root : Str) (path : Path) (includeFinal : Bool) : List Str :=
  let segments := path.value.splitOn slash
  let segmentCount := if includeFinal then segments.length else segments.length - 1
  (List.range segmentCount).map fun index ↦ join [root, join (segments.take (index + 1))]

/-- `mapError` of an error that is not nil. -/
def mapError (isNotFound : Err → Bool) (path : Path) (err : Err) : Err :=
  if isNotFound err then .wrap "%w: %s" [path.value] (.sentinel .notFound) else err

def objectPathIsRoot : Err := .wrap "%w: object path is root" [] (.sentinel .invalidPath)

/-- What `Stat` returns. -/
def metadataOf (path : Path) (child : Child) : Metadata where
  path
  kind := if child.directory then .directory else .file
  size := child.size
  modified := child.modified

/-! ## The children of a directory -/

def entryOf (path : Path) (child : Child) : Entry where
  path
  kind := if child.directory then .directory else .file
  size := child.size
  modified := child.modified

/-- The loop of `list` over the children of one directory: the entries so far, and the
directories to visit unless the listing is full. -/
def visitChildren (denied : Str → Err) (current : Path) (recursive : Bool) (limit : Int) :
    List Child → List Path → List Entry → Except Err (List Entry × Option (List Path))
  | [], queue, entries => .ok (entries, some queue)
  | child :: children, queue, entries =>
    if child.link then .error (denied child.name)
    else
      match current.join child.name with
      | .error err => .error err.err
      | .ok path =>
        let queue := if child.directory && recursive then queue ++ [path] else queue
        let entries := entries ++ [entryOf path child]
        if limit ≤ entries.length then .ok (entries, none)
        else visitChildren denied current recursive limit children queue entries

/-- `sortEntries`. -/
def sortEntries (entries : List Entry) : List Entry :=
  entries.mergeSort fun left right ↦ left.path.value ≤ right.path.value

/-- The children of a directory in the order in which they are visited. -/
def inOrder (children : List Child) : List Child :=
  children.mergeSort fun left right ↦ left.name ≤ right.name

/-- What one round of the loop of `list` does with the children of a directory. -/
def visitDirectory (denied : Str → Err) (recursive : Bool) (limit : Int) (current : Path)
    (queue : List Path) (entries : List Entry) (children : List Child) :
    (List Path × List Entry) ⊕ Except Err (List Entry) :=
  match visitChildren denied current recursive limit (inOrder children) queue entries with
  | .error err => .inr (.error err)
  | .ok (entries, none) => .inr (.ok (sortEntries entries))
  | .ok (entries, some queue) => .inl (queue, entries)

section Failure

variable {denied : Str → Err} {current : Path} {recursive : Bool} {limit : Int}
  {children : List Child} {queue : List Path} {entries : List Entry} {err : Err}

/-- The loop fails because of a link or of a name that is no path. -/
theorem visitChildren_eq_error
    (h : visitChildren denied current recursive limit children queue entries = .error err) :
    ∃ child ∈ children, (child.link = true ∧ err = denied child.name) ∨
      ∃ e, current.join child.name = .error e ∧ err = e.err := by
  induction children generalizing queue entries with
  | nil => contradiction
  | cons child children ih =>
      unfold visitChildren at h
      split at h
      · exact ⟨child, List.mem_cons_self, .inl ⟨‹_›, (Except.error.inj h).symm⟩⟩
      · split at h
        · exact ⟨child, List.mem_cons_self, .inr ⟨_, ‹_›, (Except.error.inj h).symm⟩⟩
        · dsimp only at h
          split at h
          · contradiction
          · obtain ⟨c, hc, hcause⟩ := ih h
            exact ⟨c, List.mem_cons_of_mem _ hc, hcause⟩

theorem visitDirectory_eq_error
    (h : visitDirectory denied recursive limit current queue entries children = .inr (.error err)) :
    ∃ child ∈ inOrder children, (child.link = true ∧ err = denied child.name) ∨
      ∃ e, current.join child.name = .error e ∧ err = e.err := by
  unfold visitDirectory at h
  split at h
  · rename_i hvisit
    cases h
    exact visitChildren_eq_error hvisit
  · exact nomatch Sum.inr.inj h
  · contradiction

end Failure

/-! ## Programs -/

/-- How an adapter reads the shared commands, and what else it has of its own. -/
structure Client (S : Sig) extends Link sig S where
  isConnectionError : Err → Bool
  isNotFound : Err → Bool
  linkIsDenied : Str → Err
  /-- The request for the children of a directory, with the look at the context. -/
  readDir : Ctx → Session → Str → Prog S (Except Err (List Child))

namespace Client

variable {S : Sig} (C : Client S)

def perform (c : Cmd) : Prog S c.Resp := C.toLink.perform c

/-- `currentSession`. -/
def currentSession (ctx : Ctx) : Prog S (Except Err Session) := do
  match ← C.perform (.ctxErr ctx) with
  | some err => return .error err.err
  | none =>
    C.perform .lock
    if ← C.perform .loadClosed then
      C.perform .unlock
      return .error (.sentinel .netClosed)
    else
      match ← C.perform .loadSession with
      | some session =>
        C.perform .unlock
        return .ok session
      | none =>
        match ← C.perform (.connect ctx) with
        | .error err =>
          C.perform .unlock
          return .error err
        | .ok session =>
          C.perform (.storeSession (some session))
          C.perform .unlock
          return .ok session

/-- `invalidate`. -/
def invalidate (failed : Session) : Prog S Unit := do
  C.perform .lock
  if (← C.perform .loadSession) = some failed then
    let _ ← C.perform (.release failed)
    C.perform (.storeSession none)
  C.perform .unlock

/-- `withSession`. -/
def withSession {α : Type} (ctx : Ctx) (retry : Bool)
    (operation : Session → Prog S (Except Err α)) : Prog S (Except Err α) := do
  match ← C.currentSession ctx with
  | .error err => return .error err
  | .ok session =>
    match ← operation session with
    | .ok result => return .ok result
    | .error err =>
      if retry && C.isConnectionError err then
        C.invalidate session
        match ← C.currentSession ctx with
        | .error reconnectErr => return .error (.join err reconnectErr)
        | .ok session => operation session
      else return .error err

/-- `Close`, of an adapter that nothing is left to be done for. -/
def close : Prog S (Option Err) := do
  C.perform .lock
  if ← C.perform .loadClosed then
    C.perform .unlock
    return none
  else
    C.perform .storeClosed
    match ← C.perform .loadSession with
    | none =>
      C.perform .unlock
      return none
    | some session =>
      let err ← C.perform (.release session)
      C.perform (.storeSession none)
      C.perform .unlock
      return err

/-- The look for links among some names. -/
def rejectLinks (session : Session) : List Str → Prog S (Option Err)
  | [] => return none
  | candidate :: candidates => do
    match ← C.perform (.lstat session candidate) with
    | .error err => return if C.isNotFound err then none else some err
    | .ok child =>
      if child.link then return some (C.linkIsDenied candidate)
      else rejectLinks session candidates

/-- A look for links and then `Stat`: the operation of `Stat`. -/
def checkedStat (root : Str) (path : Path) (session : Session) : Prog S (Except Err Child) := do
  match ← C.rejectLinks session (linkCandidates root path true) with
  | some err => return .error err
  | none => C.perform (.stat session (remoteName root path))

/-- One round of the loop of `list`: the next directory of the queue. -/
def listNext (root : Str) (ctx : Ctx) (session : Session) (recursive : Bool) (limit : Int) :
    List Path × List Entry → Prog S ((List Path × List Entry) ⊕ Except Err (List Entry))
  | ([], entries) => return .inr (.ok (sortEntries entries))
  | (current :: queue, entries) => do
    match ← C.readDir ctx session (remoteName root current) with
    | .error err => return .inr (.error err)
    | .ok children =>
      return visitDirectory C.linkIsDenied recursive limit current queue entries children

/-- `list`. -/
def listTree (root : Str) (ctx : Ctx) (directory : Path) (recursive : Bool) (limit : Int)
    (session : Session) : Prog S (Except Err (List Entry)) := do
  let denied ← (if directory.isRoot then pure none
    else C.rejectLinks session (linkCandidates root directory true))
  match denied with
  | some err => return .error err
  | none => Prog.loop (C.listNext root ctx session recursive limit) ([directory], [])

end Client

/-! ## The state of the session -/

structure State (Tid : Type) where
  ctx : Ctx → Option CtxErr := fun _ ↦ none
  /-- The goroutine that has locked `mu`. -/
  mu : Option Tid := none
  session : Option Session := some 0
  closed : Bool := false
  /-- How many sessions the connector has returned. -/
  dialed : Nat := 1

/-- The effect of the commands; what the server answers is arbitrary. -/
def apply {Tid : Type} (t : Tid) : (c : Cmd) → c.Resp → State Tid → Option (State Tid)
  | .ctxErr ctx, (r : Option CtxErr), s => if r = s.ctx ctx then some s else none
  | .lock, _, s => if s.mu.isNone then some { s with mu := some t } else none
  | .unlock, _, s => if s.mu.isSome then some { s with mu := none } else none
  | .loadClosed, (r : Bool), s => if r = s.closed then some s else none
  | .storeClosed, _, s => some { s with closed := true }
  | .loadSession, (r : Option Session), s => if r = s.session then some s else none
  | .storeSession session, _, s => some { s with session }
  | .connect _, (r : Except Err Session), s =>
    match r with
    | .error _ => some s
    | .ok session =>
      if session = s.dialed then some { s with dialed := s.dialed + 1 } else none
  | .release _, _, s | .lstat _ _, _, s | .stat _ _, _, s => some s

/-- The adapter has the session as a part of its state, and its commands act on it. -/
structure Client.Runs {S : Sig} {Tid St : Type} (C : Client S) (M : Machine S Tid St) where
  base : St → State Tid
  put : St → State Tid → St
  put_base : ∀ s, put s (base s) = s
  base_put : ∀ s s₀, base (put s s₀) = s₀
  put_put : ∀ s s₀ s₁, put (put s s₀) s₁ = put s s₁
  apply_eq : ∀ t c r s, M.apply t (C.cmd c) r s = (apply t c (C.resp c r) (base s)).map (put s)

end GoFilesystem.Remote
