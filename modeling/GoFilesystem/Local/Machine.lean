import GoFilesystem.Local.Adapter

/-!
# One root and everyone who uses it

The state that the calls on one adapter share: the tree of names beneath the
root, the bytes of each inode, the streams and the contexts.  Any number of calls
run at once, each in its own goroutine, and every command is one atomic step.

Besides the errors that the state explains, a command may fail for no reason the
model knows of, if `World.faults` says so.  A command that fails changes nothing,
apart from a write, which may leave a part of its bytes.  Paths are paths of
files: a call that would rename a directory has no step.
-/

namespace GoFilesystem.Local

open Go Conc Posix

/-- The error value of an `errno`. -/
def errnoErr : Errno → Err
  | .noent => .sentinel .notExist
  | .exist => .sentinel .exist
  | .notdir => .new "not a directory" []
  | .isdir => .new "is a directory" []
  | .notempty => .wrap "directory not empty" [] (.sentinel .exist)
  | .inval => .new "invalid argument" []

/-- A file that is read, or the caller's source that a `Write` reads. -/
structure Stream where
  opened : Bool := false
  ctx : Ctx := 0
  /-- The inode of the open file. -/
  file : Option Nat := none
  /-- History: the bytes returned so far.  The offset in the file is their number. -/
  received : Str := []
  /-- History: whether `io.EOF` has been returned. -/
  ended : Bool := false

structure Progress where
  /-- Whether the temporary file is closed. -/
  closed : Bool := false
  /-- History: whether a link or a rename has succeeded. -/
  committed : Bool := false
  /-- History: whether a link found its new name taken. -/
  refused : Bool := false
  /-- History: whether any other step has failed. -/
  failed : Bool := false
  /-- History: what the calls of `Remove` returned. -/
  removes : List (Option Err) := []

structure State where
  ctx : Ctx → Option CtxErr := fun _ ↦ none
  tree : Tree
  /-- The bytes of each inode. -/
  data : Nat → Str
  streams : StreamId → Stream := fun _ ↦ {}
  /-- History: the call that created an inode. -/
  author : Nat → Option Nat := fun _ ↦ none
  progress : Nat → Progress := fun _ ↦ {}

namespace State

def modifyStream (s : State) (n : StreamId) (f : Stream → Stream) : State :=
  { s with streams := Function.update s.streams n (f (s.streams n)) }

@[simp] theorem data_modifyStream (s : State) (n : StreamId) (f : Stream → Stream) :
    (s.modifyStream n f).data = s.data := rfl

@[simp] theorem author_modifyStream (s : State) (n : StreamId) (f : Stream → Stream) :
    (s.modifyStream n f).author = s.author := rfl

@[simp] theorem streams_modifyStream_self (s : State) (n : StreamId) (f : Stream → Stream) :
    (s.modifyStream n f).streams n = f (s.streams n) := Function.update_self ..

theorem streams_modifyStream_of_ne (s : State) {m n : StreamId} (hm : m ≠ n)
    (f : Stream → Stream) : (s.modifyStream n f).streams m = s.streams m :=
  Function.update_of_ne hm ..

def stat (s : State) (name : Str) : Except Errno Node :=
  if name = PathName.current then .ok .dir else s.tree.stat name

end State

/-- What differs from one machine to another. -/
structure World where
  /-- Whether a command may fail for no reason the state gives. -/
  faults : Cmd → Bool := fun _ ↦ false
  /-- The sixteen bytes that a call draws. -/
  random : Nat → Str

def mayFail {α : Type} (spurious : Bool) (result : Except Errno α) (err : Err) : Bool :=
  spurious || match result with
    | .error e => err = errnoErr e
    | .ok _ => false

/-- Whether `Stat` of a node may return this description. -/
def describes (data : Nat → Str) : Node → Info → Bool
  | .dir, info => info.directory && !info.link
  | .file ino, info => !info.directory && !info.link && info.size == (data ino).length

/-- The effect of an operation on the tree, by what it returns. -/
def onTree (spurious : Bool) (s : State) (result : Except Errno Tree) :
    Option Err → Option State
  | none => result.toOption.map fun tree ↦ { s with tree }
  | some err => if mayFail spurious result err then some s else none

def act (w : World) (n : Nat) : (c : Cmd) → c.Resp → State → Option State
  | .ctxErr ctx, (r : Option CtxErr), s => if r = s.ctx ctx then some s else none
  | .ctxDone ctx, (r : Bool), s => if r = (s.ctx ctx).isSome then some s else none
  | .cancel ctx err, _, s =>
    some { s with ctx := Function.update s.ctx ctx (s.ctx ctx <|> some err) }
  | .lstat name, (r : Except Err Info), s =>
    match r, s.stat name with
    | .ok info, .ok node => if describes s.data node info then some s else none
    | .ok _, .error _ => none
    | .error err, result => if mayFail (w.faults (.lstat name)) result err then some s else none
  | .stat name, (r : Except Err Info), s =>
    match r, s.stat name with
    | .ok info, .ok node => if describes s.data node info then some s else none
    | .ok _, .error _ => none
    | .error err, result => if mayFail (w.faults (.stat name)) result err then some s else none
  | .mkdir name final, (r : Option Err), s =>
    onTree (w.faults (.mkdir name final)) s (s.tree.mkdir name final) r
  | .random, (r : Except Err Str), s =>
    match r with
    | .ok bytes => if bytes = w.random n then some s else none
    | .error _ => if w.faults .random then some s else none
  | .create name, (r : Except Err Nat), s =>
    match r, s.tree.create name with
    | .ok ino, .ok tree =>
      if ino = s.tree.next then
        some { s with
          tree
          data := Function.update s.data ino []
          author := Function.update s.author ino (some n) }
      else none
    | .ok _, .error _ => none
    | .error err, result => if mayFail (w.faults (.create name)) result err then some s else none
  | .writeFile ino bytes, (r : Nat × Option Err), s =>
    if r.1 ≤ bytes.length ∧ (w.faults (.writeFile ino bytes) ∨ r = (bytes.length, none)) then
      some { s with data := Function.update s.data ino (s.data ino ++ bytes.take r.1) }
    else none
  | .sync ino, (r : Option Err), s => if w.faults (.sync ino) ∨ r = none then some s else none
  | .closeFile ino, (r : Option Err), s =>
    if w.faults (.closeFile ino) ∨ (s.progress n).closed ∨ r = none then some s else none
  | .link a b, (r : Option Err), s => onTree (w.faults (.link a b)) s (s.tree.link a b) r
  | .rename a b, (r : Option Err), s =>
    if s.tree.lookup a = some .dir then none
    else onTree (w.faults (.rename a b)) s (s.tree.rename a b) r
  | .renameNoReplace a b, (r : Option Err), s =>
    if s.tree.lookup a = some .dir then none
    else onTree (w.faults (.renameNoReplace a b)) s (s.tree.renameNoReplace a b) r
  | .remove name, (r : Option Err), s => onTree (w.faults (.remove name)) s (s.tree.remove name) r
  | .openFile name ctx, (r : Option Err), s =>
    match r, s.stat name with
    | none, .ok .dir => some (s.modifyStream n fun _ ↦ { opened := true, ctx })
    | none, .ok (.file ino) =>
      some (s.modifyStream n fun _ ↦ { opened := true, ctx, file := some ino })
    | none, .error _ => none
    | some err, result =>
      if mayFail (w.faults (.openFile name ctx)) result err then some s else none
  | .useStream k, (r : Ctx), s =>
    if (s.streams k).opened ∧ r = (s.streams k).ctx then some s else none
  | .readFile k, (r : Except Err Str), s =>
    let stream := s.streams k
    match r, stream.file with
    | .ok bytes, some ino =>
      if bytes <+: (s.data ino).drop stream.received.length then
        some (s.modifyStream k ({ · with received := stream.received ++ bytes }))
      else none
    | .ok _, none => none
    | .error err, file =>
      if err = .sentinel .eof then
        match file with
        | some ino =>
          if (s.data ino).length ≤ stream.received.length then
            some (s.modifyStream k ({ · with ended := true }))
          else none
        | none => none
      else if w.faults (.readFile k) ∨ (file = none ∧ err = errnoErr .isdir) then some s
      else none
  | .closeStream _, _, s => some s
  | .source, (r : Str × Option Err), s =>
    if (s.streams n).ended then none
    else some (s.modifyStream n fun stream ↦ { stream with
      received := stream.received ++ r.1
      ended := r.2 = some (.sentinel .eof) })

/-- Whether a response reports a failure.  A name that does not exist is an answer
to `Stat` and `Lstat`, and the end of a stream is not a failure. -/
def Cmd.fails : (c : Cmd) → c.Resp → Bool
  | .ctxErr _, (r : Option CtxErr) => r.isSome
  | .lstat _, (r : Except Err Info) | .stat _, (r : Except Err Info) =>
    match r with
    | .error err => !err.is .notExist
    | .ok _ => false
  | .random, (r : Except Err Str) => !r.isOk
  | .create _, (r : Except Err Nat) => !r.isOk
  | .writeFile _ bytes, (r : Nat × Option Err) => r ≠ (bytes.length, none)
  | .readFile _, (r : Except Err Str) =>
    match r with
    | .error err => err ≠ .sentinel .eof
    | .ok _ => false
  | .source, (r : Str × Option Err) =>
    match r.2 with
    | some err => err ≠ .sentinel .eof
    | none => false
  | .mkdir _ _, (r : Option Err) | .sync _, (r : Option Err) | .closeFile _, (r : Option Err)
  | .link _ _, (r : Option Err) | .rename _ _, (r : Option Err)
  | .renameNoReplace _ _, (r : Option Err) | .remove _, (r : Option Err)
  | .openFile _ _, (r : Option Err) => r.isSome
  | .ctxDone _, _ | .cancel _ _, _ | .useStream _, _ | .closeStream _, _ => false

def Progress.after (p : Progress) : (c : Cmd) → c.Resp → Progress
  | .link _ _, (r : Option Err) =>
    match r with
    | none => { p with committed := true }
    | some err =>
      if err.is .exist then { p with refused := true } else { p with failed := true }
  | .rename _ _, (r : Option Err) | .renameNoReplace _ _, (r : Option Err) =>
    match r with
    | none => { p with committed := true }
    | some _ => { p with failed := true }
  | .remove _, (r : Option Err) =>
    { p with removes := p.removes ++ [r], failed := p.failed || r.isSome }
  | .closeFile _, (r : Option Err) =>
    { p with closed := true, failed := p.failed || (!p.closed && r.isSome) }
  | c, r => { p with failed := p.failed || c.fails r }

def apply (w : World) (n : Nat) (c : Cmd) (r : c.Resp) (s : State) : Option State :=
  (act w n c r s).map fun s' ↦
    { s' with progress := Function.update s.progress n ((s.progress n).after c r) }

def machine (w : World) : Machine sig Nat State := ⟨apply w⟩

def start (a : Adapter) (calls : Nat → Call) (s : State) :
    Config sig State fun _ : Nat ↦ Outcome where
  state := s
  threads n := (calls n).run a n

def errorOf {α : Type} : Except Errno α → Option Err
  | .ok _ => none
  | .error e => some (errnoErr e)

/-- What `Stat` returns if nothing goes wrong. -/
def describe (s : State) (name : Str) : Except Err Info :=
  match s.stat name with
  | .ok .dir => .ok { directory := true }
  | .ok (.file ino) => .ok { size := (s.data ino).length }
  | .error e => .error (errnoErr e)

/-- The response if nothing goes wrong; `source` says how the source of a call goes
on after the bytes it has returned so far. -/
def answer (w : World) (source : Nat → Str → Str × Option Err) (n : Nat) (s : State) :
    (c : Cmd) → c.Resp
  | .ctxErr ctx => s.ctx ctx
  | .ctxDone ctx => (s.ctx ctx).isSome
  | .cancel _ _ => ()
  | .lstat name | .stat name => describe s name
  | .mkdir name final => errorOf (s.tree.mkdir name final)
  | .random => .ok (w.random n)
  | .create name =>
    match s.tree.create name with
    | .ok _ => .ok s.tree.next
    | .error e => .error (errnoErr e)
  | .writeFile _ bytes => (bytes.length, none)
  | .sync _ | .closeFile _ | .closeStream _ => none
  | .link a b => errorOf (s.tree.link a b)
  | .rename a b => errorOf (s.tree.rename a b)
  | .renameNoReplace a b => errorOf (s.tree.renameNoReplace a b)
  | .remove name => errorOf (s.tree.remove name)
  | .openFile name _ => errorOf (s.stat name)
  | .useStream k => (s.streams k).ctx
  | .readFile k =>
    match (s.streams k).file with
    | none => .error (errnoErr .isdir)
    | some ino =>
      match (s.data ino).drop (s.streams k).received.length with
      | [] => .error (.sentinel .eof)
      | bytes => .ok bytes
  | .source => source n (s.streams n).received

/-! ## What a step does -/

/-- Whether a response leaves everything but the contexts as it is. -/
def Cmd.quiet : (c : Cmd) → c.Resp → Bool
  | .mkdir _ _, (r : Option Err) | .link _ _, (r : Option Err) | .rename _ _, (r : Option Err)
  | .renameNoReplace _ _, (r : Option Err) | .remove _, (r : Option Err)
  | .openFile _ _, (r : Option Err) => r.isSome
  | .create _, (r : Except Err Nat) => !r.isOk
  | .readFile _, (r : Except Err Str) =>
    match r with
    | .error err => err ≠ .sentinel .eof
    | .ok _ => false
  | .writeFile _ _, _ | .source, _ => false
  | _, _ => true

/-- What a command of the call `n` does to everything but the progress. -/
inductive Effect (n : Nat) (s : State) : (c : Cmd) → c.Resp → State → Prop
  | quiet {c : Cmd} {r : c.Resp} (hc : c.quiet r = true) (ctx) : Effect n s c r { s with ctx }
  | mkdir {name final tree} (h : s.tree.mkdir name final = .ok tree) :
      Effect n s (.mkdir name final) none { s with tree }
  | create {name tree} (h : s.tree.create name = .ok tree) :
      Effect n s (.create name) (.ok s.tree.next) { s with
        tree
        data := Function.update s.data s.tree.next []
        author := Function.update s.author s.tree.next (some n) }
  | write {ino bytes written err} (h : written ≤ bytes.length) :
      Effect n s (.writeFile ino bytes) (written, err)
        { s with data := Function.update s.data ino (s.data ino ++ bytes.take written) }
  | link {a b tree} (h : s.tree.link a b = .ok tree) : Effect n s (.link a b) none { s with tree }
  | rename {a b tree} (h : s.tree.rename a b = .ok tree) :
      Effect n s (.rename a b) none { s with tree }
  | renameNoReplace {a b tree} (h : s.tree.renameNoReplace a b = .ok tree) :
      Effect n s (.renameNoReplace a b) none { s with tree }
  | remove {name tree} (h : s.tree.remove name = .ok tree) :
      Effect n s (.remove name) none { s with tree }
  | openDir {name ctx} (h : s.stat name = .ok .dir) :
      Effect n s (.openFile name ctx) none (s.modifyStream n fun _ ↦ { opened := true, ctx })
  | openFile {name ctx ino} (h : s.stat name = .ok (.file ino)) :
      Effect n s (.openFile name ctx) none
        (s.modifyStream n fun _ ↦ { opened := true, ctx, file := some ino })
  | read {k ino bytes} (hfile : (s.streams k).file = some ino)
      (h : bytes <+: (s.data ino).drop (s.streams k).received.length) :
      Effect n s (.readFile k) (.ok bytes)
        (s.modifyStream k ({ · with received := (s.streams k).received ++ bytes }))
  | eof {k ino} (hfile : (s.streams k).file = some ino)
      (h : (s.data ino).length ≤ (s.streams k).received.length) :
      Effect n s (.readFile k) (.error (.sentinel .eof))
        (s.modifyStream k ({ · with ended := true }))
  | source {bytes err} (h : (s.streams n).ended = false) :
      Effect n s .source (bytes, err) (s.modifyStream n fun stream ↦ { stream with
        received := stream.received ++ bytes
        ended := err = some (.sentinel .eof) })

section Inversion

variable {w : World} {n : Nat} {s s' : State}

theorem onTree_eq_some {spurious : Bool} {result : Except Errno Tree} {r : Option Err}
    (h : onTree spurious s result r = some s') :
    (∃ tree, r = none ∧ result = .ok tree ∧ s' = { s with tree }) ∨
      ∃ err, r = some err ∧ mayFail spurious result err = true ∧ s' = s := by
  cases r with
  | none =>
      cases result with
      | error e => exact nomatch h
      | ok tree => exact .inl ⟨tree, rfl, rfl, (Option.some.inj h).symm⟩
  | some err =>
      obtain ⟨hfail, hs⟩ := of_ite_some h
      exact .inr ⟨err, rfl, hfail, hs.symm⟩

theorem Effect.same {c : Cmd} {r : c.Resp} (hc : c.quiet r = true) : Effect n s c r s :=
  .quiet hc s.ctx

theorem effect_of_act {c : Cmd} {r : c.Resp} (h : act w n c r s = some s') :
    Effect n s c r s' := by
  cases c with
  | ctxErr | ctxDone | sync | closeFile | useStream =>
      obtain ⟨-, rfl⟩ := of_ite_some h
      exact .same rfl
  | cancel ctx err =>
      cases h
      exact .quiet rfl _
  | closeStream k =>
      cases h
      exact .same rfl
  | lstat name | stat name =>
      dsimp only [act] at h
      split at h
      · obtain ⟨-, rfl⟩ := of_ite_some h
        exact .same rfl
      · contradiction
      · obtain ⟨-, rfl⟩ := of_ite_some h
        exact .same rfl
  | random =>
      dsimp only [act] at h
      split at h <;>
      · obtain ⟨-, rfl⟩ := of_ite_some h
        exact .same rfl
  | mkdir =>
      rcases onTree_eq_some h with ⟨tree, rfl, htree, rfl⟩ | ⟨err, rfl, -, rfl⟩
      · exact .mkdir htree
      · exact .same rfl
  | create name =>
      dsimp only [act] at h
      split at h
      · rename_i tree htree
        obtain ⟨rfl, rfl⟩ := of_ite_some h
        exact .create htree
      · contradiction
      · obtain ⟨-, rfl⟩ := of_ite_some h
        exact .same rfl
  | writeFile ino bytes =>
      obtain ⟨⟨hle, -⟩, rfl⟩ := of_ite_some h
      exact .write hle
  | link a b =>
      rcases onTree_eq_some h with ⟨tree, rfl, htree, rfl⟩ | ⟨err, rfl, -, rfl⟩
      · exact .link htree
      · exact .same rfl
  | rename a b =>
      obtain ⟨-, h⟩ := Option.ite_none_left_eq_some.mp h
      rcases onTree_eq_some h with ⟨tree, rfl, htree, rfl⟩ | ⟨err, rfl, -, rfl⟩
      · exact .rename htree
      · exact .same rfl
  | renameNoReplace a b =>
      obtain ⟨-, h⟩ := Option.ite_none_left_eq_some.mp h
      rcases onTree_eq_some h with ⟨tree, rfl, htree, rfl⟩ | ⟨err, rfl, -, rfl⟩
      · exact .renameNoReplace htree
      · exact .same rfl
  | remove name =>
      rcases onTree_eq_some h with ⟨tree, rfl, htree, rfl⟩ | ⟨err, rfl, -, rfl⟩
      · exact .remove htree
      · exact .same rfl
  | openFile name ctx =>
      dsimp only [act] at h
      split at h
      · rename_i hstat
        cases h
        exact .openDir hstat
      · rename_i hstat
        cases h
        exact .openFile hstat
      · contradiction
      · obtain ⟨-, rfl⟩ := of_ite_some h
        exact .same rfl
  | readFile k =>
      dsimp only [act] at h
      split at h
      · rename_i hfile
        obtain ⟨hbytes, rfl⟩ := of_ite_some h
        exact .read hfile hbytes
      · contradiction
      · split at h
        · rename_i heof
          subst heof
          split at h
          · rename_i hfile
            obtain ⟨hlen, rfl⟩ := of_ite_some h
            exact .eof hfile hlen
          · contradiction
        · rename_i heof
          obtain ⟨-, rfl⟩ := of_ite_some h
          exact .same (decide_eq_true heof)
  | source =>
      obtain ⟨hended, rfl⟩ := of_ite_none h
      exact .source (Bool.not_eq_true _ ▸ hended)

theorem lookup_of_stat {name : Str} {ino : Nat} (h : s.stat name = .ok (.file ino)) :
    s.tree.lookup name = some (.file ino) := by
  unfold State.stat at h
  split at h
  · exact nomatch h
  · exact Tree.lookup_of_stat h

/-- A step: what it does, and the progress of its call. -/
theorem effect {c : Cmd} {r : c.Resp} (h : apply w n c r s = some s') : ∃ s₁,
    Effect n s c r s₁ ∧ s' = { s₁ with
      progress := Function.update s.progress n ((s.progress n).after c r) } := by
  obtain ⟨s₁, hact, rfl⟩ := Option.map_eq_some_iff.mp h
  exact ⟨s₁, effect_of_act hact, rfl⟩

end Inversion

end GoFilesystem.Local
