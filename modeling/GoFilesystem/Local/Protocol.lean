import GoFilesystem.Conc.Logic
import GoFilesystem.Local.Machine

/-!
# Temporary files and published files

`Permitted` says when a call may issue a command: it creates only its own
temporary file, writes only to that file and only what its source has returned,
and gives it a lasting name only when the file holds everything the source has
returned up to its end; everything else it does to the names of others is to
remove or to move them under paths its caller gave.

A file under a name that is not a temporary one is `Published`: its bytes are
those of a file that was there before or of the whole source of a `Write`, and
nobody changes them any more.  Every permitted step keeps that (`Inv.step`), so it
remains to show that the programs issue only permitted commands.
-/

namespace GoFilesystem.Local

open Go Conc Posix

/-! ## Calls and their temporary names -/

def Call.target : Call → Option Path
  | .write _ path _ => some path
  | .copy _ _ destination _ => some destination
  | _ => none

def Call.paths : Call → List Path
  | .write _ path _ | .delete _ path | .openStream _ path | .stat _ path => [path]
  | .copy _ source destination _ | .move _ source destination _ => [source, destination]
  | .read _ | .cancel _ _ => []

def Call.overwrites : Call → Bool
  | .write _ _ options => !options.ifNoneMatch
  | .copy _ _ _ options | .move _ _ _ options => options.overwrite
  | _ => false

/-- The name of the temporary file of a call, if it is one that makes one. -/
def temporary (w : World) (calls : Nat → Call) (n : Nat) : Option Str :=
  (calls n).target.map fun path ↦ temporaryName (PathName.dir path.value) (w.random n)

/-- Calls on one adapter.  Streams that are read come from `Open`, and temporary
names are fresh: no two calls have the same one, and no caller gives one. -/
structure Pool (w : World) where
  calls : Nat → Call
  streams : ∀ m k, calls m = .read k → ∃ ctx path, calls k = .openStream ctx path
  distinct : ∀ m n name, temporary w calls m = some name → temporary w calls n = some name → m = n
  apart : ∀ m n, ∀ path ∈ (calls m).paths, temporary w calls n ≠ some path.value

section Protocol

variable {w : World} (p : Pool w) (s₀ : State)

/-! ## The protocol -/

/-- The temporary file of a call is there and holds everything its source has
returned up to its end, and nothing has gone wrong. -/
structure Ready (n : Nat) (s : State) (name : Str) (ino : Nat) : Prop where
  temp : temporary w p.calls n = some name
  lookup : s.tree.lookup name = some (.file ino)
  author : s.author ino = some n
  ended : (s.streams n).ended = true
  data : s.data ino = (s.streams n).received
  committed : (s.progress n).committed = false
  refused : (s.progress n).refused = false
  failed : (s.progress n).failed = false

/-- A call may give its temporary file the name of its target. -/
def Publishes (n : Nat) (s : State) (a b : Str) : Prop :=
  (∃ path, (p.calls n).target = some path ∧ b = path.value) ∧ ∃ ino, Ready p n s a ino

/-- A `Move` may take the file at its source to its destination. -/
def Moves (n : Nat) (s : State) (a b : Str) : Prop :=
  (s.progress n).committed = false ∧ ∃ ctx source destination options,
    p.calls n = .move ctx source destination options ∧ a = source.value ∧ b = destination.value

def Permitted (n : Nat) (s : State) : Cmd → Prop
  | .mkdir name _ => ∃ path ∈ (p.calls n).paths, name ∈ ancestors path.value
  | .create name => temporary w p.calls n = some name ∧ ∀ ino, s.author ino ≠ some n
  | .writeFile ino bytes => s.author ino = some n ∧ s.data ino ++ bytes <+: (s.streams n).received
  | .link a b => (p.calls n).overwrites = false ∧ Publishes p n s a b
  | .rename a b => (p.calls n).overwrites = true ∧ (Publishes p n s a b ∨ Moves p n s a b)
  | .renameNoReplace a b => (p.calls n).overwrites = false ∧ Moves p n s a b
  | .remove name =>
    (temporary w p.calls n = some name ∧
      ∃ ino, s.author ino = some n ∧ s.tree.lookup name = some (.file ino)) ∨
    ∃ ctx path, p.calls n = .delete ctx path ∧ name = path.value
  | .openFile name _ => (∃ path ∈ (p.calls n).paths, name = path.value) ∧
      (∀ ctx path options, p.calls n ≠ .write ctx path options) ∧ (s.streams n).opened = false
  | .readFile k => p.calls n = .read k ∨
      (k = n ∧ ∃ ctx source destination options, p.calls n = .copy ctx source destination options)
  | .source => ∃ ctx path options, p.calls n = .write ctx path options
  | _ => True

/-- The bytes of a file that was there before, or of the whole source of a
`Write`. -/
def Complete (s : State) (bytes : Str) : Prop :=
  (∃ name ino, s₀.tree.lookup name = some (.file ino) ∧ bytes = s₀.data ino) ∨
  ∃ n ctx path options, p.calls n = .write ctx path options ∧
    (s.streams n).ended = true ∧ bytes = (s.streams n).received

/-- A file that nobody changes any more. -/
structure Published (s : State) (ino : Nat) : Prop where
  complete : Complete p s₀ s (s.data ino)
  settled : ∀ n, s.author ino = some n →
    (s.streams n).ended = true ∧ s.data ino = (s.streams n).received
  bound : ino < s.tree.next

structure StreamInv (s : State) (k : StreamId) : Prop where
  file : ∀ ino, (s.streams k).file = some ino → Published p s₀ s ino ∧
    (s.streams k).received <+: s.data ino ∧
    ((s.streams k).ended = true → (s.streams k).received = s.data ino)
  unopened : (s.streams k).opened = false → (s.streams k).file = none
  ended : (s.streams k).ended = true → (s.streams k).file = none →
    ∃ ctx path options, p.calls k = .write ctx path options
  write : ∀ ctx path options, p.calls k = .write ctx path options → (s.streams k).file = none

structure Inv (s : State) : Prop where
  names : ∀ name ino, (∀ n, temporary w p.calls n ≠ some name) →
    s.tree.lookup name = some (.file ino) → Published p s₀ s ino
  streams : ∀ k, StreamInv p s₀ s k
  bound : ∀ ino n, s.author ino = some n → ino < s.tree.next
  unique : ∀ i j n, s.author i = some n → s.author j = some n → i = j
  /-- A file that is not published has no name but the temporary one. -/
  alone : ∀ ino n name, s.author ino = some n → (s.progress n).committed = false →
    s.tree.lookup name = some (.file ino) → temporary w p.calls n = some name

def protocol : Protocol (machine w) where
  Inv := Inv p s₀
  Guar n c r s s' := Permitted p n s c ∧ apply w n c r s = some s'

/-! ## What a step leaves alone -/

/-- What later states keep: who made a file, the streams that have ended, and the
bytes of published files. -/
structure Later (s s' : State) : Prop where
  next : s.tree.next ≤ s'.tree.next
  author : ∀ ino < s.tree.next, s'.author ino = s.author ino
  ended : ∀ k, (s.streams k).ended = true →
    (s'.streams k).ended = true ∧ (s'.streams k).received = (s.streams k).received
  data : ∀ ino, Published p s₀ s ino → s'.data ino = s.data ino

variable {p s₀} {s s' : State} {n ino m : Nat} {name : Str} {c : Cmd} {r : c.Resp} {q : Progress}
  {L : State → Prop}

theorem Complete.later {bytes : Str} (h : Complete p s₀ s bytes) (hlater : Later p s₀ s s') :
    Complete p s₀ s' bytes := by
  rcases h with hinitial | ⟨m, ctx, path, options, hm, hended, rfl⟩
  · exact .inl hinitial
  · obtain ⟨hended', hreceived⟩ := hlater.ended m hended
    exact .inr ⟨m, ctx, path, options, hm, hended', hreceived.symm⟩

theorem Published.later (h : Published p s₀ s ino) (hlater : Later p s₀ s s') :
    Published p s₀ s' ino := by
  have hdata := hlater.data ino h
  refine ⟨hdata ▸ h.complete.later hlater, ?_, h.bound.trans_le hlater.next⟩
  intro m hm
  obtain ⟨hended, hreceived⟩ := h.settled m ((hlater.author ino h.bound).symm.trans hm)
  obtain ⟨hended', hreceived'⟩ := hlater.ended m hended
  exact ⟨hended', hdata.trans (hreceived.trans hreceived'.symm)⟩

/-- A step that leaves the streams, the inodes and their bytes alone. -/
theorem Later.of_eq (hnext : s'.tree.next = s.tree.next) (hauthor : s'.author = s.author)
    (hstreams : s'.streams = s.streams) (hdata : s'.data = s.data) : Later p s₀ s s' where
  next := hnext.ge
  author _ _ := by rw [hauthor]
  ended k hk := by
    rw [hstreams]
    exact ⟨hk, rfl⟩
  data _ _ := by rw [hdata]

/-- A step that changes one stream, which has not ended or stays as it is. -/
theorem Later.of_stream {k : StreamId} {f : Stream → Stream}
    (h : (s.streams k).ended = true → (f (s.streams k)).ended = true ∧
      (f (s.streams k)).received = (s.streams k).received) :
    Later p s₀ s (s.modifyStream k f) where
  next := le_rfl
  author _ _ := rfl
  ended j hj := by
    by_cases hjk : j = k
    · subst hjk
      rw [State.streams_modifyStream_self]
      exact h hj
    · rw [s.streams_modifyStream_of_ne hjk]
      exact ⟨hj, rfl⟩
  data _ _ := rfl

theorem Inv.not_ended_of_openFile (hs : Inv p s₀ s) {ctx : Ctx}
    (hc : Permitted p n s (.openFile name ctx)) : (s.streams n).ended ≠ true := by
  intro hended
  obtain ⟨-, hwrite, hopened⟩ := hc
  obtain ⟨ctx, path, options, heq⟩ :=
    (hs.streams n).ended hended ((hs.streams n).unopened hopened)
  exact hwrite ctx path options heq

theorem later_of_effect (hs : Inv p s₀ s) (hc : Permitted p n s c) (h : Effect n s c r s') :
    Later p s₀ s s' := by
  cases h with
  | quiet => exact .of_eq rfl rfl rfl rfl
  | mkdir h => exact .of_eq (Tree.lookup_mkdir h).1 rfl rfl rfl
  | link h => exact .of_eq (Tree.lookup_link h).1 rfl rfl rfl
  | rename h => exact .of_eq (Tree.lookup_rename h).1 rfl rfl rfl
  | renameNoReplace h => exact .of_eq (Tree.lookup_renameNoReplace h).1 rfl rfl rfl
  | remove h => exact .of_eq (Tree.lookup_remove h).1 rfl rfl rfl
  | create h =>
      refine ⟨(Tree.lookup_create h).1.symm ▸ Nat.le_succ _, ?_, fun _ hk ↦ ⟨hk, rfl⟩, ?_⟩
      · exact fun ino hino ↦ Function.update_of_ne hino.ne ..
      · exact fun ino hino ↦ Function.update_of_ne hino.bound.ne ..
  | @write ino bytes written err h =>
      refine ⟨le_rfl, fun _ _ ↦ rfl, fun _ hk ↦ ⟨hk, rfl⟩, fun i hi ↦ ?_⟩
      by_cases hino : i = ino
      · subst hino
        -- the file holds all there is, so that there is nothing left to write
        obtain ⟨hauthor, hbytes⟩ := hc
        have hnil : bytes = [] := by
          have hlen := hbytes.length_le
          rw [← (hi.settled n hauthor).2, List.length_append] at hlen
          exact List.eq_nil_of_length_eq_zero (by omega)
        subst hnil
        rw [List.take_nil, List.append_nil]
        exact Function.update_self ..
      · exact Function.update_of_ne hino ..
  | openDir h => exact .of_stream fun hended ↦ (hs.not_ended_of_openFile hc hended).elim
  | openFile h => exact .of_stream fun hended ↦ (hs.not_ended_of_openFile hc hended).elim
  | @read k ino bytes hfile h =>
      refine .of_stream fun hended ↦ ⟨hended, ?_⟩
      rw [(((hs.streams k).file ino hfile).2.2 hended), List.drop_length, List.prefix_nil] at h
      exact h ▸ List.append_nil _
  | eof hfile h => exact .of_stream fun hended ↦ ⟨rfl, rfl⟩
  | source h => exact .of_stream fun hended ↦ nomatch h.symm.trans hended

theorem later_of_step (hs : Inv p s₀ s) (hc : Permitted p n s c) (h : apply w n c r s = some s') :
    Later p s₀ s s' := by
  obtain ⟨s₁, heffect, rfl⟩ := effect h
  obtain ⟨hnext, hauthor, hended, hdata⟩ := later_of_effect hs hc heffect
  exact ⟨hnext, hauthor, hended, hdata⟩

/-! ## How names come and go -/

/-- Why a name stands for a file that it did not stand for before. -/
inductive Arrives (p : Pool w) (n : Nat) (s s' : State) (name : Str) (ino : Nat) : Prop
  | created (htemp : temporary w p.calls n = some name) (hino : ino = s.tree.next)
      (hauthor : s'.author ino = some n)
  | published {temp path} (hready : Ready p n s temp ino)
      (hpath : (p.calls n).target = some path) (hname : name = path.value)
      (hcommitted : (s'.progress n).committed = true)
  | moved {a} (hmoves : Moves p n s a name) (ha : s.tree.lookup a = some (.file ino))
      (hcommitted : (s'.progress n).committed = true)

/-- Why a name does not stand for a file that it stood for before. -/
inductive Departs (p : Pool w) (n : Nat) (s s' : State) (name : Str) (ino : Nat) : Prop
  | temporary (htemp : temporary w p.calls n = some name)
  | deleted {ctx path} (hcall : p.calls n = .delete ctx path) (hname : name = path.value)
  | replaced {path} (hcall : (p.calls n).overwrites = true) (hpath : path ∈ (p.calls n).paths)
      (hname : name = path.value)
  | moved {b} (hmoves : Moves p n s name b) (hb : s.tree.lookup b = none)
      (hb' : s'.tree.lookup b = some (.file ino))

theorem target_mem_paths {call : Call} {path : Path} (h : call.target = some path) :
    path ∈ call.paths := by
  cases call with
  | write ctx path options =>
      cases h
      exact List.mem_singleton_self _
  | copy ctx source destination options =>
      cases h
      exact List.mem_cons_of_mem _ (List.mem_singleton_self _)
  | _ => exact nomatch h

theorem Moves.mem_paths {a b : Str} (h : Moves p n s a b) :
    (∃ path ∈ (p.calls n).paths, a = path.value) ∧ ∃ path ∈ (p.calls n).paths, b = path.value := by
  obtain ⟨-, ctx, source, destination, options, heq, rfl, rfl⟩ := h
  rw [heq]
  exact ⟨⟨source, by simp [Call.paths], rfl⟩, ⟨destination, by simp [Call.paths], rfl⟩⟩

theorem arrives (hc : Permitted p n s c) (h : apply w n c r s = some s')
    (hname : s'.tree.lookup name = some (.file ino)) :
    s.tree.lookup name = some (.file ino) ∨ Arrives p n s s' name ino := by
  obtain ⟨s₁, heffect, rfl⟩ := effect h
  cases heffect with
  | quiet | write | openDir | openFile | read | eof | source => exact .inl hname
  | mkdir htree =>
      rw [(Tree.lookup_mkdir htree).2.2 name] at hname
      split at hname
      · exact nomatch hname
      · exact .inl hname
  | create htree =>
      rw [(Tree.lookup_create htree).2.2 name] at hname
      split at hname
      · rename_i heq
        subst heq
        cases hname
        exact .inr (.created hc.1 rfl (Function.update_self ..))
      · exact .inl hname
  | link htree =>
      obtain ⟨-, ino', ha, hb, hlookup⟩ := Tree.lookup_link htree
      obtain ⟨-, ⟨path, hpath, hvalue⟩, ino'', hready⟩ := hc
      rw [hlookup name] at hname
      split at hname
      · rename_i heq
        cases hname
        cases Option.some.inj (ha.symm.trans hready.lookup)
        exact .inr (.published hready hpath (heq.trans hvalue) (by simp [Progress.after]))
      · exact .inl hname
  | rename htree =>
      obtain ⟨-, ino', ha, hb, hlookup⟩ := Tree.lookup_rename htree
      rcases hlookup with ⟨-, rfl⟩ | hlookup
      · exact .inl hname
      · rw [hlookup name] at hname
        split at hname
        · rename_i heq
          cases hname
          rcases hc.2 with ⟨⟨path, hpath, hvalue⟩, ino'', hready⟩ | hmoves
          · cases Option.some.inj (ha.symm.trans hready.lookup)
            exact .inr (.published hready hpath (heq.trans hvalue) (by simp [Progress.after]))
          · exact .inr (.moved (heq ▸ hmoves) ha (by simp [Progress.after]))
        · split at hname
          · contradiction
          · exact .inl hname
  | renameNoReplace htree =>
      obtain ⟨-, ino', ha, hb, hlookup⟩ := Tree.lookup_renameNoReplace htree
      rw [hlookup name] at hname
      split at hname
      · rename_i heq
        cases hname
        exact .inr (.moved (heq ▸ hc.2) ha (by simp [Progress.after]))
      · split at hname
        · contradiction
        · exact .inl hname
  | remove htree =>
      rw [(Tree.lookup_remove htree).2 name] at hname
      split at hname
      · contradiction
      · exact .inl hname

theorem departs (hc : Permitted p n s c) (h : apply w n c r s = some s')
    (hname : s.tree.lookup name = some (.file ino)) :
    s'.tree.lookup name = some (.file ino) ∨ Departs p n s s' name ino := by
  obtain ⟨s₁, heffect, rfl⟩ := effect h
  cases heffect with
  | quiet | write | openDir | openFile | read | eof | source => exact .inl hname
  | mkdir htree =>
      obtain ⟨-, hfile, hlookup⟩ := Tree.lookup_mkdir htree
      refine .inl ((hlookup name).trans ?_)
      rw [if_neg, hname]
      rintro rfl
      exact hfile ino hname
  | create htree =>
      obtain ⟨-, hnone, hlookup⟩ := Tree.lookup_create htree
      refine .inl ((hlookup name).trans ?_)
      rw [if_neg, hname]
      rintro rfl
      exact nomatch hnone.symm.trans hname
  | link htree =>
      obtain ⟨-, ino', ha, hb, hlookup⟩ := Tree.lookup_link htree
      refine .inl ((hlookup name).trans ?_)
      rw [if_neg, hname]
      rintro rfl
      exact nomatch hb.symm.trans hname
  | @rename a b tree htree =>
      obtain ⟨-, ino', ha, hb, hlookup⟩ := Tree.lookup_rename htree
      rcases hlookup with ⟨-, rfl⟩ | hlookup
      · exact .inl hname
      · by_cases hnb : name = b
        · subst hnb
          rcases hc.2 with ⟨⟨path, hpath, hvalue⟩, -⟩ | hmoves
          · exact .inr (.replaced hc.1 (target_mem_paths hpath) hvalue)
          · obtain ⟨path, hpath, hvalue⟩ := hmoves.mem_paths.2
            exact .inr (.replaced hc.1 hpath hvalue)
        · by_cases hna : name = a
          · subst hna
            rcases hc.2 with ⟨-, ino'', hready⟩ | hmoves
            · exact .inr (.temporary hready.temp)
            · obtain ⟨path, hpath, hvalue⟩ := hmoves.mem_paths.1
              exact .inr (.replaced hc.1 hpath hvalue)
          · refine .inl ((hlookup name).trans ?_)
            rw [if_neg hnb, if_neg hna, hname]
  | @renameNoReplace a b tree htree =>
      obtain ⟨-, ino', ha, hb, hlookup⟩ := Tree.lookup_renameNoReplace htree
      by_cases hna : name = a
      · subst hna
        cases Option.some.inj (ha.symm.trans hname)
        exact .inr (.moved hc.2 hb ((hlookup b).trans (if_pos rfl)))
      · refine .inl ((hlookup name).trans ?_)
        rw [if_neg, if_neg hna, hname]
        rintro rfl
        exact nomatch hb.symm.trans hname
  | @remove a tree htree =>
      by_cases hna : name = a
      · subst hna
        rcases hc with ⟨htemp, -⟩ | ⟨ctx, path, hcall, hvalue⟩
        · exact .inr (.temporary htemp)
        · exact .inr (.deleted hcall hvalue)
      · refine .inl (((Tree.lookup_remove htree).2 name).trans ?_)
        rw [if_neg hna, hname]

/-- Directories are made only above the paths that a caller gave. -/
theorem dir_of_step (hc : Permitted p n s c) (h : apply w n c r s = some s')
    (hname : s'.tree.lookup name = some .dir) :
    s.tree.lookup name = some .dir ∨ ∃ path ∈ (p.calls n).paths, name ∈ ancestors path.value := by
  obtain ⟨s₁, heffect, rfl⟩ := effect h
  cases heffect with
  | quiet | write | openDir | openFile | read | eof | source => exact .inl hname
  | mkdir htree =>
      rw [(Tree.lookup_mkdir htree).2.2 name] at hname
      split at hname
      · rename_i heq
        exact .inr (heq ▸ hc)
      · exact .inl hname
  | create htree =>
      rw [(Tree.lookup_create htree).2.2 name] at hname
      split at hname
      · cases hname
      · exact .inl hname
  | link htree =>
      obtain ⟨-, ino, -, -, hlookup⟩ := Tree.lookup_link htree
      rw [hlookup name] at hname
      split at hname
      · cases hname
      · exact .inl hname
  | rename htree =>
      obtain ⟨-, ino, -, -, ⟨-, rfl⟩ | hlookup⟩ := Tree.lookup_rename htree
      · exact .inl hname
      · rw [hlookup name] at hname
        split at hname
        · cases hname
        · split at hname
          · cases hname
          · exact .inl hname
  | renameNoReplace htree =>
      obtain ⟨-, ino, -, -, hlookup⟩ := Tree.lookup_renameNoReplace htree
      rw [hlookup name] at hname
      split at hname
      · cases hname
      · split at hname
        · cases hname
        · exact .inl hname
  | remove htree =>
      rw [(Tree.lookup_remove htree).2 name] at hname
      split at hname
      · cases hname
      · exact .inl hname

theorem author_of_step (hc : Permitted p n s c) (h : apply w n c r s = some s')
    (hino : s'.author ino = some m) :
    s.author ino = some m ∨ (m = n ∧ ino = s.tree.next ∧ (∀ i, s.author i ≠ some n) ∧
      s'.tree.next = s.tree.next + 1) := by
  obtain ⟨s₁, heffect, rfl⟩ := effect h
  cases heffect with
  | create htree =>
      dsimp only at hino
      rw [Function.update_apply] at hino
      split at hino
      · exact .inr ⟨(Option.some.inj hino).symm, ‹_›, hc.2, (Tree.lookup_create htree).1⟩
      · exact .inl hino
  | _ => exact .inl hino

/-! ## The invariant -/

/-- A file is complete by the time it is published. -/
theorem Inv.published_of_ready (hs : Inv p s₀ s) (h : Ready p n s name ino) :
    Published p s₀ s ino := by
  refine ⟨?_, ?_, hs.bound ino n h.author⟩
  · rw [h.data]
    cases hfile : (s.streams n).file with
    | none =>
        obtain ⟨ctx, path, options, hcall⟩ := (hs.streams n).ended h.ended hfile
        exact .inr ⟨n, ctx, path, options, hcall, h.ended, rfl⟩
    | some source =>
        obtain ⟨hsource, -, hreceived⟩ := (hs.streams n).file source hfile
        exact hreceived h.ended ▸ hsource.complete
  · intro m hm
    cases hm.symm.trans h.author
    exact ⟨h.ended, h.data⟩

theorem Moves.temporary_ne {a b : Str} (h : Moves p n s a b) :
    (∀ m, temporary w p.calls m ≠ some a) ∧ ∀ m, temporary w p.calls m ≠ some b := by
  obtain ⟨⟨source, hsource, rfl⟩, ⟨destination, hdestination, rfl⟩⟩ := h.mem_paths
  exact ⟨fun m ↦ p.apart n m source hsource, fun m ↦ p.apart n m destination hdestination⟩

theorem StreamInv.later {k : StreamId} (h : StreamInv p s₀ s k) (hlater : Later p s₀ s s')
    (hstream : s'.streams k = s.streams k) : StreamInv p s₀ s' k := by
  obtain ⟨hfile, hunopened, hended, hwrite⟩ := h
  refine ⟨?_, ?_, ?_, ?_⟩ <;> rw [hstream]
  · intro ino hino
    obtain ⟨hpublished, hreceived, hall⟩ := hfile ino hino
    rw [hlater.data ino hpublished]
    exact ⟨hpublished.later hlater, hreceived, hall⟩
  · exact hunopened
  · exact hended
  · exact hwrite

/-- A step that changes one stream. -/
theorem Inv.modify_step {m : StreamId} {x : Stream} (hs : Inv p s₀ s) (hlater : Later p s₀ s s')
    (hstreams : s'.streams = Function.update s.streams m x)
    (h : s'.streams m = x → StreamInv p s₀ s' m) (k : StreamId) : StreamInv p s₀ s' k := by
  by_cases hkm : k = m
  · subst hkm
    exact h (hstreams ▸ Function.update_self ..)
  · exact (hs.streams k).later hlater (hstreams ▸ Function.update_of_ne hkm ..)

theorem Inv.stream_step (hs : Inv p s₀ s) (hc : Permitted p n s c) (h : apply w n c r s = some s')
    (k : StreamId) : StreamInv p s₀ s' k := by
  have hlater := later_of_step hs hc h
  obtain ⟨s₁, heffect, rfl⟩ := effect h
  cases heffect with
  | quiet | mkdir | create | write | link | rename | renameNoReplace | remove =>
      exact (hs.streams k).later hlater rfl
  | openDir hstat =>
      refine hs.modify_step hlater rfl (fun heq ↦ ⟨?_, ?_, ?_, ?_⟩) k <;> rw [heq]
      · exact nofun
      · exact nofun
      · exact nofun
      · exact fun _ _ _ _ ↦ rfl
  | @openFile name ctx ino hstat =>
      obtain ⟨⟨path, hpath, rfl⟩, hwrite, -⟩ := hc
      have hpublished : Published p s₀ s ino :=
        hs.names path.value ino (fun m ↦ p.apart n m path hpath) (lookup_of_stat hstat)
      refine hs.modify_step hlater rfl (fun heq ↦ ⟨?_, ?_, ?_, ?_⟩) k <;> rw [heq]
      · rintro _ ⟨⟩
        exact ⟨hpublished.later hlater, List.nil_prefix, nofun⟩
      · exact nofun
      · exact nofun
      · exact fun ctx path options hcall ↦ absurd hcall (hwrite ctx path options)
  | @read m ino bytes hfile hbytes =>
      obtain ⟨hpublished, hreceived, hall⟩ := (hs.streams m).file ino hfile
      refine hs.modify_step hlater rfl (fun heq ↦ ⟨?_, ?_, ?_, ?_⟩) k <;> rw [heq]
      · intro i hi
        cases hfile.symm.trans hi
        refine ⟨hpublished.later hlater, ?_, ?_⟩
        · obtain ⟨rest, hrest⟩ := hreceived
          have hdrop : (s.data ino).drop (s.streams m).received.length = rest := by
            rw [← hrest, List.drop_left]
          exact hrest ▸ (List.prefix_append_right_inj _).mpr (hdrop ▸ hbytes)
        · intro hended
          have hlen := hbytes.length_le
          rw [hall hended, List.drop_length, List.length_nil] at hlen
          rw [List.eq_nil_of_length_eq_zero (Nat.le_zero.mp hlen), List.append_nil]
          exact hall hended
      · exact (hs.streams m).unopened
      · exact (hs.streams m).ended
      · exact (hs.streams m).write
  | @eof m ino hfile hlen =>
      obtain ⟨hpublished, hreceived, hall⟩ := (hs.streams m).file ino hfile
      refine hs.modify_step hlater rfl (fun heq ↦ ⟨?_, ?_, ?_, ?_⟩) k <;> rw [heq]
      · intro i hi
        cases hfile.symm.trans hi
        exact ⟨hpublished.later hlater, hreceived, fun _ ↦ hreceived.eq_of_length_le hlen⟩
      · exact (hs.streams m).unopened
      · intro _ hnone
        exact nomatch hfile.symm.trans hnone
      · exact (hs.streams m).write
  | source hended =>
      obtain ⟨ctx, path, options, hcall⟩ := hc
      have hfile := (hs.streams n).write ctx path options hcall
      refine hs.modify_step hlater rfl (fun heq ↦ ⟨?_, ?_, ?_, ?_⟩) k <;> rw [heq]
      · intro i hi
        exact nomatch hfile.symm.trans hi
      · exact fun _ ↦ hfile
      · exact fun _ _ ↦ ⟨ctx, path, options, hcall⟩
      · exact fun _ _ _ _ ↦ hfile

theorem committed_after (h : q.committed = true) : (q.after c r).committed = true := by
  cases c with
  | link a b =>
      cases r with
      | none => rfl
      | some err =>
          dsimp only [Progress.after]
          split <;> exact h
  | rename a b | renameNoReplace a b =>
      cases r with
      | none => rfl
      | some err => exact h
  | _ => exact h

theorem removes_after (hc : ∀ name, c ≠ .remove name) : (q.after c r).removes = q.removes := by
  cases c with
  | remove name => exact absurd rfl (hc name)
  | link a b =>
      cases r with
      | none => rfl
      | some err =>
          dsimp only [Progress.after]
          split <;> rfl
  | rename a b | renameNoReplace a b => cases r <;> rfl
  | _ => rfl

theorem committed_of_step (h : apply w n c r s = some s') (hm : (s.progress m).committed = true) :
    (s'.progress m).committed = true := by
  obtain ⟨s₁, -, rfl⟩ := effect h
  dsimp only
  rw [Function.update_apply]
  split
  · rename_i heq
    exact committed_after (heq ▸ hm)
  · exact hm

theorem Inv.step (hs : Inv p s₀ s) (hc : Permitted p n s c) (h : apply w n c r s = some s') :
    Inv p s₀ s' := by
  have hlater := later_of_step hs hc h
  refine ⟨?_, hs.stream_step hc h, ?_, ?_, ?_⟩
  · intro name ino htemp hname
    rcases arrives hc h hname with hold | hnew
    · exact (hs.names name ino htemp hold).later hlater
    · cases hnew with
      | created hcreated => exact absurd hcreated (htemp n)
      | published hready => exact (hs.published_of_ready hready).later hlater
      | moved hmoves ha =>
          exact (hs.names _ ino hmoves.temporary_ne.1 ha).later hlater
  · intro ino m hm
    rcases author_of_step hc h hm with hold | ⟨-, rfl, -, hnext⟩
    · exact (hs.bound ino m hold).trans_le hlater.next
    · exact hnext ▸ Nat.lt_succ_self _
  · intro i j m hi hj
    rcases author_of_step hc h hi with hi | ⟨rfl, rfl, hunborn, -⟩
    · rcases author_of_step hc h hj with hj | ⟨rfl, -, hunborn, -⟩
      · exact hs.unique i j m hi hj
      · exact absurd hi (hunborn i)
    · rcases author_of_step hc h hj with hj | ⟨-, rfl, -, -⟩
      · exact absurd hj (hunborn j)
      · rfl
  · intro ino m name hauthor hcommitted hname
    have hcommitted' : (s.progress m).committed = false := by
      rw [← Bool.not_eq_true] at hcommitted ⊢
      exact fun hm ↦ hcommitted (committed_of_step h hm)
    rcases arrives hc h hname with hold | hnew
    · rcases author_of_step hc h hauthor with hauthor | ⟨-, rfl, -, -⟩
      · exact hs.alone ino m name hauthor hcommitted' hold
      · exact absurd (s.tree.bound name _ hold) (lt_irrefl _)
    · rcases author_of_step hc h hauthor with hauthor | ⟨rfl, rfl, -, -⟩
      · cases hnew with
        | created _ hino => exact absurd (hino ▸ hs.bound ino m hauthor) (lt_irrefl _)
        | published hready _ _ hcommitted'' =>
            cases hauthor.symm.trans hready.author
            exact nomatch hcommitted.symm.trans hcommitted''
        | moved hmoves ha =>
            exact absurd (hs.alone ino m _ hauthor hcommitted' ha)
              (hmoves.temporary_ne.1 m)
      · cases hnew with
        | created htemp => exact htemp
        | published hready => exact absurd (hs.bound _ _ hready.author) (lt_irrefl _)
        | moved _ ha => exact absurd (s.tree.bound _ _ ha) (lt_irrefl _)

/-- Before the first step. -/
theorem inv_initial (ctx : Ctx → Option CtxErr) (tree : Tree) (data : Nat → Str) :
    Inv p { ctx, tree, data } { ctx, tree, data } where
  names name ino _ h := ⟨.inl ⟨name, ino, h, rfl⟩, nofun, tree.bound name ino h⟩
  streams _ := ⟨nofun, fun _ ↦ rfl, nofun, fun _ _ _ _ ↦ rfl⟩
  bound := nofun
  unique := nofun
  alone := nofun

/-! ## What the others leave alone -/

theorem progress_of_step (h : apply w n c r s = some s') :
    s'.progress = Function.update s.progress n ((s.progress n).after c r) := by
  obtain ⟨s₁, -, rfl⟩ := effect h
  rfl

/-- What the others leave alone: the file that a call has made, its temporary
name, and its stream, unless that is one that `Open` returns. -/
structure Kept (p : Pool w) (n : Nat) (s s' : State) : Prop where
  author : ∀ ino, s'.author ino = some n ↔ s.author ino = some n
  data : ∀ ino, s.author ino = some n → s'.data ino = s.data ino
  stream : (∀ ctx path, p.calls n ≠ .openStream ctx path) → s'.streams n = s.streams n
  opened : (s'.streams n).opened = (s.streams n).opened
  temp : ∀ name ino, temporary w p.calls n = some name →
    (s'.tree.lookup name = some (.file ino) ↔ s.tree.lookup name = some (.file ino))

theorem temp_of_other (hm : m ≠ n) (hc : Permitted p m s c) (h : apply w m c r s = some s')
    (htemp : temporary w p.calls n = some name) :
    s'.tree.lookup name = some (.file ino) ↔ s.tree.lookup name = some (.file ino) := by
  constructor
  · intro hname
    refine (arrives hc h hname).resolve_right fun hnew ↦ ?_
    cases hnew with
    | created hcreated => exact hm (p.distinct m n name hcreated htemp)
    | published _ hpath hvalue =>
        exact p.apart m n _ (target_mem_paths hpath) (hvalue ▸ htemp)
    | moved hmoves => exact hmoves.temporary_ne.2 n htemp
  · intro hname
    refine (departs hc h hname).resolve_right fun hgone ↦ ?_
    cases hgone with
    | temporary hown => exact hm (p.distinct m n name hown htemp)
    | @deleted ctx path hcall hvalue =>
        refine p.apart m n path ?_ (hvalue ▸ htemp)
        rw [hcall]
        exact List.mem_singleton_self _
    | replaced _ hpath hvalue => exact p.apart m n _ hpath (hvalue ▸ htemp)
    | moved hmoves => exact hmoves.temporary_ne.1 n htemp

theorem data_of_other (hs : Inv p s₀ s) (hm : m ≠ n) (hc : Permitted p m s c)
    (h : apply w m c r s = some s') (hino : s.author ino = some n) : s'.data ino = s.data ino := by
  obtain ⟨s₁, heffect, rfl⟩ := effect h
  cases heffect with
  | create => exact Function.update_of_ne (hs.bound ino n hino).ne ..
  | @write ino' =>
      refine Function.update_of_ne ?_ ..
      rintro rfl
      exact hm (Option.some.inj (hc.1.symm.trans hino))
  | _ => rfl

/-- The stream that a step of a call changes is its own, or one that `Open` has
returned to it. -/
theorem streams_of_other (hm : m ≠ n) (hc : Permitted p m s c) (h : apply w m c r s = some s') :
    ((∀ ctx path, p.calls n ≠ .openStream ctx path) → s'.streams n = s.streams n) ∧
      (s'.streams n).opened = (s.streams n).opened := by
  obtain ⟨s₁, heffect, rfl⟩ := effect h
  cases heffect with
  | openDir | openFile | source =>
      have hsame := fun x ↦ Function.update_of_ne (Ne.symm hm) x s.streams
      exact ⟨fun _ ↦ hsame _, congrArg Stream.opened (hsame _)⟩
  | @read k | @eof k =>
      by_cases hk : n = k
      · subst hk
        refine ⟨fun hopen ↦ ?_, by simp⟩
        rcases hc with hread | ⟨heq, -⟩
        · obtain ⟨ctx, path, hcall⟩ := p.streams m n hread
          exact absurd hcall (hopen ctx path)
        · exact absurd heq.symm hm
      · have hsame := fun x ↦ Function.update_of_ne hk x s.streams
        exact ⟨fun _ ↦ hsame _, congrArg Stream.opened (hsame _)⟩
  | _ => exact ⟨fun _ ↦ rfl, rfl⟩

theorem kept_of_other (hs : Inv p s₀ s) (hm : m ≠ n) (hc : Permitted p m s c)
    (h : apply w m c r s = some s') : Kept p n s s' where
  author ino := by
    constructor
    · intro hino
      exact (author_of_step hc h hino).resolve_right fun hnew ↦ hm hnew.1.symm
    · intro hino
      exact ((later_of_step hs hc h).author ino (hs.bound ino n hino)).trans hino
  data _ := data_of_other hs hm hc h
  stream := (streams_of_other hm hc h).1
  opened := (streams_of_other hm hc h).2
  temp _ _ := temp_of_other hm hc h

/-! ## Rules -/

/-- The commands that leave alone what concerns their own call. -/
def Cmd.steady : Cmd → Bool
  | .create _ | .writeFile _ _ | .link _ _ | .rename _ _ | .renameNoReplace _ _ | .remove _
  | .openFile _ _ | .readFile _ | .source => false
  | _ => true

theorem kept_of_quiet (hc : c.quiet r = true) (h : apply w n c r s = some s') : Kept p n s s' := by
  obtain ⟨s₁, heffect, rfl⟩ := effect h
  cases heffect with
  | quiet => exact ⟨fun _ ↦ Iff.rfl, fun _ _ ↦ rfl, fun _ ↦ rfl, rfl, fun _ _ _ ↦ Iff.rfl⟩
  | eof => exact absurd hc (by simp [Cmd.quiet])
  | _ => exact nomatch hc

theorem kept_of_steady (hc : c.steady = true) (h : apply w n c r s = some s') : Kept p n s s' := by
  cases c with
  | mkdir made _ =>
      cases r with
      | some err => exact kept_of_quiet rfl h
      | none =>
          obtain ⟨s₁, heffect, rfl⟩ := effect h
          cases heffect with
          | quiet hquiet => exact nomatch hquiet
          | mkdir htree =>
              refine ⟨fun _ ↦ Iff.rfl, fun _ _ ↦ rfl, fun _ ↦ rfl, rfl, fun name ino _ ↦ ?_⟩
              obtain ⟨-, hfile, hlookup⟩ := Tree.lookup_mkdir htree
              dsimp only
              rw [hlookup name]
              split
              · rename_i heq
                subst heq
                exact iff_of_false nofun (hfile ino)
              · exact Iff.rfl
  | create | writeFile | link | rename | renameNoReplace | remove | openFile | readFile | source =>
      exact nomatch hc
  | _ => exact kept_of_quiet rfl h

/-- An assertion that the others keep, the progress of the call included. -/
def Respects (p : Pool w) (n : Nat) (L : State → Prop) : Prop :=
  ∀ s s', Kept p n s s' → s'.progress n = s.progress n → L s → L s'

theorem Respects.stable (h : Respects p n L) : (protocol p s₀).Stable n L := by
  intro m hm c r s s' hs _ hguar hl
  refine h s s' (kept_of_other hs hm hguar.1 hguar.2) ?_ hl
  rw [progress_of_step hguar.2, Function.update_of_ne (Ne.symm hm)]

/-- A permitted command. -/
theorem command (n : Nat) (c : Cmd) {Q : c.Resp → State → Prop}
    (hc : ∀ s, Inv p s₀ s → L s → Permitted p n s c) (hstable : ∀ r, (protocol p s₀).Stable n (Q r))
    (h : ∀ s r s', Inv p s₀ s → L s → apply w n c r s = some s' → Q r s') :
    (protocol p s₀).Triple n (perform c) L Q := by
  refine Protocol.Triple.command hstable ?_
  intro s r s' hs hl happly
  have hpermitted := hc s hs hl
  exact ⟨hs.step hpermitted happly, ⟨hpermitted, happly⟩, h s r s' hs hl happly⟩

/-- An assertion about what the others leave alone, apart from the progress. -/
def Owned (p : Pool w) (n : Nat) (L : State → Prop) : Prop := ∀ s s', Kept p n s s' → L s → L s'

/-- A call that has come so far. -/
def At (n : Nat) (q : Progress) (L : State → Prop) (s : State) : Prop := s.progress n = q ∧ L s

theorem Owned.at (h : Owned p n L) (q : Progress) : Respects p n (At n q L) := by
  intro s s' hkept hprogress hl
  exact ⟨hprogress.trans hl.1, h s s' hkept hl.2⟩

/-- A permitted command of a call that has come so far. -/
theorem step (c : Cmd) {K : c.Resp → State → Prop} (hK : ∀ r, Owned p n (K r))
    (hc : ∀ s, Inv p s₀ s → At n q L s → Permitted p n s c)
    (h : ∀ s r s', Inv p s₀ s → At n q L s → apply w n c r s = some s' → K r s') :
    (protocol p s₀).Triple n (perform c) (At n q L) fun r ↦ At n (q.after c r) (K r) := by
  refine command n c hc (fun r ↦ ((hK r).at _).stable) ?_
  intro s r s' hs hl happly
  refine ⟨?_, h s r s' hs hl happly⟩
  rw [progress_of_step happly, Function.update_self, hl.1]

/-- A command that leaves alone what concerns its own call. -/
theorem Owned.steady (h : Owned p n L) (c : Cmd) (hsteady : c.steady = true)
    (hc : ∀ s, Permitted p n s c) :
    (protocol p s₀).Triple n (perform c) (At n q L) fun r ↦ At n (q.after c r) L :=
  step c (fun _ ↦ h) (fun s _ _ ↦ hc s) fun s _ s' _ hl happly ↦
    h s s' (kept_of_steady hsteady happly) hl.2

end Protocol

end GoFilesystem.Local
