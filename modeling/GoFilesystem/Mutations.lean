import GoFilesystem.Ftp.Upload
import GoFilesystem.Sftp.Upload

/-!
# Deletions and moves on servers

`Delete` of the two adapters for servers and `Move` of the SFTP adapter, on a server that
may fail any request, with or without effect, while contexts may be done at any time.
-/

namespace GoFilesystem

open Go Conc Posix Remote PathName Client.Runs

/-- What a deletion may leave: everything as before, or all but one object that has nothing
in it; the latter if it succeeded. -/
def Deletes (l : Location) (succeeded : Prop) (tree tree' : FileTree) : Prop :=
  (¬succeeded ∧ tree' = tree) ∨
    (tree.lookup l ≠ none ∧ (∀ name, tree.lookup (l ++ [name]) = none) ∧ tree.Sets l none tree')

/-- What a move may leave: everything as before, up to directories, or the file at the
destination only; the latter if it succeeded. -/
def Relocates (directory source destination : Location) (succeeded : Prop)
    (tree tree' : FileTree) : Prop :=
  (¬succeeded ∧ ∀ l, Kept directory tree tree' l) ∨
    ∃ content, tree.lookup source = some (.file content) ∧
      tree'.lookup destination = some (.file content) ∧
      (source ≠ destination → tree'.lookup source = none) ∧
      ∀ l, l ≠ source → l ≠ destination → Kept directory tree tree' l

/-- What is in a directory would have lost its parent. -/
theorem lookup_of_sets_none {l : Location} {tree tree' : FileTree} (h : tree.Sets l none tree')
    (name : Str) : tree.lookup (l ++ [name]) = none := by
  by_contra hne
  rw [← (h (l ++ [name])).trans (if_neg (by simp))] at hne
  exact nomatch (FileTree.lookup_parent hne).symm.trans ((h l).trans (if_pos rfl))

/-- The names of the files that a command asks to delete. -/
def Sftp.Cmd.deletes : Sftp.Cmd → List Str
  | .remove _ name => [name]
  | _ => []

/-- The names of the files that a command asks to delete. -/
def Ftp.Cmd.deletes : Ftp.Cmd → List Str
  | .delete _ name => [name]
  | _ => []

/-- `answers`, with the names that a call has asked to delete. -/
def Sftp.deleting (faults : Bool) (random : Str) (t : Sftp.Tid) :
    Answers Sftp.sig (Sftp.State × Sftp.Outside × List Str) :=
  Sftp.runs.alone faults (fun s ↦ Answers.noting (Sftp.serves faults random s) Sftp.Cmd.deletes) t

/-- `answers`, with the names that a call has asked to delete. -/
def Ftp.deleting (faults : Bool) (random : Str) (t : Ftp.Tid) :
    Answers Ftp.sig (Ftp.State × Server × List Str) :=
  Ftp.runs.alone faults (fun _ ↦ Answers.noting (Ftp.serves faults random) Ftp.Cmd.deletes) t

/-- A deletion has been asked for once, or not at all if it failed. -/
def DeletesOnce (name : Str) (succeeded : Prop) (tree tree' : FileTree) (requests : List Str) :
    Prop :=
  Deletes (elements name) succeeded tree tree' ∧ ((¬succeeded ∧ requests = []) ∨ requests = [name])

section

variable {faults : Bool} {random : Str} {name : Str} {tree tree' : FileTree} {requests : List Str}

theorem DeletesOnce.none {err : Err} : DeletesOnce name (some err = none) tree tree [] :=
  ⟨.inl ⟨nofun, rfl⟩, .inl ⟨nofun, rfl⟩⟩

/-- An error stays one. -/
theorem DeletesOnce.mono {succeeded succeeded' : Prop}
    (h : DeletesOnce name succeeded tree tree' requests) (hle : succeeded' → succeeded) :
    DeletesOnce name succeeded' tree tree' requests :=
  ⟨h.1.imp_left fun h ↦ ⟨h.1 ∘ hle, h.2⟩, h.2.imp_left fun h ↦ ⟨h.1 ∘ hle, h.2⟩⟩

theorem Sftp.noted (faults : Bool) (random : Str) : Sftp.runs.Served faults
    (fun s ↦ Answers.noting (Sftp.serves faults random s) Sftp.Cmd.deletes)
    fun v ↦ v.1.toServer :=
  (Sftp.served faults random).noting fun c ↦ by cases c <;> rfl

theorem Ftp.noted (faults : Bool) (random : Str) : Ftp.runs.Served faults
    (fun _ ↦ Answers.noting (Ftp.serves faults random) Ftp.Cmd.deletes) fun v ↦ v.1 :=
  (Ftp.served faults random).noting fun c ↦ by cases c <;> rfl

end

section

variable (faults : Bool) (random : Str)

/-- **Deletions touch one object.**  Whenever `Delete` returns, nothing is gone but an
object at the path that had nothing in it; if it succeeded, there was one and it is gone.
There was at most one request to delete, however the connection was lost, and one if it
succeeded. -/
theorem deletes_one_object (path : Path) :
    (∀ (a : Sftp.Adapter) (ctx : Sftp.Ctx) (t : Sftp.Tid) (s : Sftp.State) (v : Sftp.Outside),
      Ensures (Sftp.deleting faults random t) False (Sftp.delete a ctx path) (s, v, [])
        fun r w' ↦ DeletesOnce (a.remotePath path) (r = none) v.tree w'.2.1.tree w'.2.2) ∧
    ∀ (a : Ftp.Adapter) (ctx : Ftp.Ctx) (t : Ftp.Tid) (s : Ftp.State) (v : Server),
      Ensures (Ftp.deleting faults random t) False (Ftp.delete a ctx path) (s, v, [])
        fun r w' ↦ DeletesOnce (a.remotePath path) (r = none) v.tree w'.2.1.tree w'.2.2 := by
  constructor
  · intro a ctx t s v
    refine ((Sftp.noted faults random).inert_currentSession ctx).next ?_
    rintro (err | session) s
    · exact .none
    refine ((Sftp.noted faults random).inert_rejectLinks session _).next ?_
    rintro (_ | err) s
    swap
    · exact .none
    refine Ensures.check (K := fun r w' ↦ DeletesOnce (a.remotePath path) (r = none) v.tree
      w'.2.1.tree w'.2.2) (ensures_serves ?_) (fun err w₁ h ↦ h.mono nofun) fun w₁ h ↦ h
    rintro _ r _ ⟨_, _⟩ ⟨⟨_, rfl, hchanges⟩, rfl⟩
    obtain ⟨tree, rfl, hdeletes⟩ := hchanges.cases
    exact ⟨hdeletes.imp_right fun h ↦ ⟨h.1, lookup_of_sets_none h.2, h.2⟩, .inr rfl⟩
  · intro a ctx t s v
    let Deleted (r : Except Err Unit) (w' : Ftp.State × Server × List Str) : Prop :=
      DeletesOnce (a.remotePath path) (r.isOk = true) v.tree w'.2.1.tree w'.2.2
    have hlock : Still (Ftp.deleting faults random t) Prod.snd (Ftp.perform .opLock) :=
      inert_of_serves fun _ _ _ _ h ↦ Prod.ext h.1 (h.2.trans (List.append_nil _))
    have hunlock : Still (Ftp.deleting faults random t) Prod.snd (Ftp.perform .opUnlock) :=
      inert_of_serves fun _ _ _ _ h ↦ Prod.ext h.1 (h.2.trans (List.append_nil _))
    refine Ensures.bind (K := Deleted) ?_ ?_
    · refine hlock.next fun _ s ↦ Ensures.bind (K := Deleted) ?_
        fun result w₁ h ↦ hunlock.next fun _ s ↦ h
      refine ((Ftp.noted faults random).inert_currentSession ctx).next ?_
      rintro (err | session) s
      · exact ⟨.inl ⟨nofun, rfl⟩, .inl ⟨nofun, rfl⟩⟩
      refine Ensures.bind (K := Deleted) ?_ ?_
      · refine ((Ftp.noted faults random).inert_rejectLinks session _).next ?_
        rintro (_ | err) s
        swap
        · exact ⟨.inl ⟨nofun, rfl⟩, .inl ⟨nofun, rfl⟩⟩
        refine Ensures.check (K := fun r w' ↦ DeletesOnce (a.remotePath path) (r = none) v.tree
          w'.2.1.tree w'.2.2) (ensures_serves ?_) (fun err w₁ h ↦ h.mono nofun)
          fun w₁ h ↦ h.mono fun _ ↦ rfl
        rintro _ r _ ⟨_, _⟩ ⟨hchanges, rfl⟩
        dsimp only [Ftp.serves] at hchanges
        obtain ⟨tree, rfl, hdeletes⟩ := hchanges.cases
        refine ⟨hdeletes.imp_right fun ⟨⟨_, hfile⟩, h⟩ ↦ ⟨?_, lookup_of_sets_none h, h⟩, .inr rfl⟩
        exact hfile ▸ nofun
      · rintro (err | ⟨⟩) w₁ h
        · exact h
        · exact h
    · rintro (err | ⟨⟩) w₁ h
      · exact h.mono nofun
      · exact h.mono fun _ ↦ rfl

/-- **Moves lose nothing.**  Unless the source is a directory, whenever `Move` returns,
everything is as before, or the file is at the destination with its content and no longer
at the source; if it succeeded, it is there.  No other file has changed. -/
theorem move_keeps_content (a : Sftp.Adapter) (source destination : Path)
    (options : OverwriteOptions) (ctx : Sftp.Ctx) (t : Sftp.Tid) (w : Sftp.State × Sftp.Outside) :
    Ensures (Sftp.answers faults random t) False (Sftp.move a ctx source destination options) w
      fun r w' ↦ w.2.tree.lookup (elements (a.remotePath source)) ≠ some .directory →
        Relocates (elements (dir (a.remotePath destination))) (elements (a.remotePath source))
          (elements (a.remotePath destination)) (r = none) w.2.tree w'.2.tree := by
  let Moved (r : Option Err) (tree' : FileTree) : Prop :=
    w.2.tree.lookup (elements (a.remotePath source)) ≠ some .directory →
      Relocates (elements (dir (a.remotePath destination))) (elements (a.remotePath source))
        (elements (a.remotePath destination)) (r = none) w.2.tree tree'
  have hrefl (err : Err) : Moved (some err) w.2.tree := fun _ ↦ .inl ⟨nofun, fun _ ↦ .inl rfl⟩
  unfold Sftp.move
  split
  · exact hrefl _
  refine ((Sftp.served faults random).inert_currentSession ctx).next ?_
  rintro (err | session) s
  · exact hrefl _
  refine (Sftp.inert_rejectSymlinks session source true).next ?_
  rintro (_ | err) s
  swap
  · exact hrefl _
  refine (Sftp.inert_rejectSymlinks session destination false).next ?_
  rintro (_ | err) s
  swap
  · exact hrefl _
  refine Ensures.check (K := fun _ w' ↦ w.2.tree.Makes (elements (dir (a.remotePath destination)))
    w'.2.tree) (ensures_serves ?_) (fun err w₁ hmakes _ ↦ .inl ⟨nofun, hmakes⟩) ?_
  · rintro _ r _ _ ⟨_, rfl, tree, rfl, hmakes, -⟩
    exact hmakes
  intro w₁ hmakes
  refine Ensures.check (K := fun r w' ↦ Moved r w'.2.tree) (ensures_serves ?_)
    (fun err w₂ h hsource ↦ ?_) fun w₂ h ↦ h
  · rintro _ r _ _ ⟨_, rfl, hchanges⟩ hsource
    obtain ⟨tree, rfl, ⟨hr, rfl⟩ | ⟨hdirectory, houtside⟩ | ⟨content, hfile, -, hlookup⟩⟩ :=
      hchanges.cases
    · exact .inl ⟨hr, hmakes⟩
    · -- only `MkdirAll` can have made the source a directory
      rcases hmakes (elements (a.remotePath source)) with heq | ⟨-, -, hprefix⟩
      · exact absurd (heq.symm.trans hdirectory) hsource
      · exact absurd hprefix houtside
    refine .inr ⟨content, ?_, (hlookup _).trans (if_pos rfl), fun hne ↦ ?_, fun l hl hl' ↦ ?_⟩
    · rcases hmakes (elements (a.remotePath source)) with heq | ⟨-, hdirectory, -⟩
      · exact heq.symm.trans hfile
      · exact nomatch hdirectory.symm.trans hfile
    · exact (hlookup _).trans ((if_neg hne).trans (if_pos rfl))
    · exact Kept.of_eq (hmakes l) ((hlookup _).trans ((if_neg hl').trans (if_neg hl)))
  · exact (h hsource).imp_left fun h ↦ ⟨nofun, h.2⟩

end

end GoFilesystem
