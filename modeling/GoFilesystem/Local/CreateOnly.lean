import GoFilesystem.Local.Calls
import Mathlib.Tactic.IntervalCases

/-!
# Create-only writes

Any number of create-only writes and copies to one path, among any other calls
that leave that path alone.  Whoever links its temporary file first is the
publisher.  The early `Stat` of the others is only a hint; what refuses them is
the link, and then they remove their temporary files.
-/

namespace GoFilesystem.Local

open Go Conc Posix

/-- The steps on directories and sources, which may fail for any reason. -/
def Cmd.external : Cmd → Bool
  | .lstat _ | .mkdir _ _ | .openFile _ _ | .readFile _ => true
  | _ => false

/-- A response that stops a call because of its source, its context or a directory
on the way to its path. -/
def Cmd.setsBack : (c : Cmd) → c.Resp → Bool
  | .create _, (r : Except Err Nat) =>
    match r with
    | .error err => !err.is .exist
    | .ok _ => false
  | .ctxErr ctx, r => (Cmd.ctxErr ctx).fails r
  | .lstat name, r => (Cmd.lstat name).fails r
  | .stat name, r => (Cmd.stat name).fails r
  | .mkdir name final, r => (Cmd.mkdir name final).fails r
  | .openFile name ctx, r => (Cmd.openFile name ctx).fails r
  | .readFile stream, r => (Cmd.readFile stream).fails r
  | .source, r => Cmd.source.fails r
  | _, _ => false

section CreateOnly

variable {w : World} (p : Pool w) (path : Path)

/-- Calls that write to a path only if it does not exist, or only look at it, in a
world in which nothing fails but the steps on directories and sources.  Temporary
names are free at first, and no caller gives a path beneath one. -/
structure CreateOnly (tree : Tree) : Prop where
  exclusive : ∀ n, path ∈ (p.calls n).paths →
    ((p.calls n).target = some path ∧ (p.calls n).overwrites = false) ∨
      (∃ ctx, p.calls n = .openStream ctx path) ∨ ∃ ctx, p.calls n = .stat ctx path
  free : ∀ n name, temporary w p.calls n = some name → tree.lookup name = none
  beneath : ∀ m n name, temporary w p.calls n = some name →
    ∀ path ∈ (p.calls m).paths, name ∉ ancestors path.value
  faults : ∀ c, w.faults c = true → c.external = true

/-- A temporary name stands for the file of its call, or for nothing. -/
def FreshNames (s : State) : Prop :=
  ∀ n name node, temporary w p.calls n = some name → s.tree.lookup name = some node →
    ∃ ino, node = .file ino ∧ s.author ino = some n

variable {p path} {s₀ s s' : State} {n m : Nat} {tree : Tree} {c : Cmd} {r : c.Resp}

theorem FreshNames.step (h : FreshNames p s) (hcreate : CreateOnly p path tree) (hs : Inv p s₀ s)
    (hc : Permitted p n s c) (happly : apply w n c r s = some s') : FreshNames p s' := by
  intro m name node htemp hname
  cases node with
  | dir =>
      rcases dir_of_step hc happly hname with hold | ⟨other, hother, hbeneath⟩
      · obtain ⟨ino, hnode, -⟩ := h m name .dir htemp hold
        exact nomatch hnode
      · exact absurd hbeneath (hcreate.beneath n m name htemp other hother)
  | file ino =>
      refine ⟨ino, rfl, ?_⟩
      rcases arrives hc happly hname with hold | hnew
      · obtain ⟨ino', hnode, hauthor⟩ := h m name _ htemp hold
        cases hnode
        exact ((later_of_step hs hc happly).author ino (hs.bound ino m hauthor)).trans hauthor
      · cases hnew with
        | created hown _ hauthor => exact p.distinct n m name hown htemp ▸ hauthor
        | published _ hpath hvalue =>
            exact absurd (hvalue ▸ htemp) (p.apart n m _ (target_mem_paths hpath))
        | moved hmoves => exact absurd htemp (hmoves.temporary_ne.2 m)

/-! ## What stops a call -/

theorem act_of_apply (h : apply w n c r s = some s') : ∃ s₁, act w n c r s = some s₁ := by
  obtain ⟨s₁, hact, -⟩ := Option.map_eq_some_iff.mp h
  exact ⟨s₁, hact⟩

/-- An error that is not a fault is the one of the operation. -/
theorem error_of_mayFail {α : Type} {result : Except Errno α} {err : Err}
    (h : mayFail false result err = true) : ∃ e, result = .error e ∧ err = errnoErr e := by
  cases result with
  | ok x => exact nomatch h
  | error e => exact ⟨e, rfl, by simpa [mayFail] using h⟩

theorem CreateOnly.faults_eq_false (h : CreateOnly p path tree) (hc : c.external = false) :
    w.faults c = false := by
  rw [← Bool.not_eq_true]
  intro hfaults
  exact nomatch hc.symm.trans (h.faults c hfaults)

theorem CreateOnly.error_of_onTree (h : CreateOnly p path tree) (hc : c.external = false)
    {result : Except Errno Tree} {err : Err}
    (hact : onTree (w.faults c) s result (some err) = some s') :
    ∃ e, result = .error e ∧ err = errnoErr e := by
  obtain ⟨hfail, -⟩ := Option.ite_none_right_eq_some.mp hact
  rw [h.faults_eq_false hc] at hfail
  exact error_of_mayFail hfail

theorem temporary_eq {other : Path} (h : (p.calls n).target = some other) :
    temporary w p.calls n = some (temporaryName (PathName.dir other.value) (w.random n)) := by
  rw [temporary, h]
  rfl

/-- The removal of a temporary file succeeds. -/
theorem CreateOnly.remove_eq_none (h : CreateOnly p path tree) {name : Str} {r : Option Err}
    {other : Path} (hother : (p.calls n).target = some other) (hc : Permitted p n s (.remove name))
    (happly : apply w n (.remove name) r s = some s') : r = none := by
  cases r with
  | none => rfl
  | some err =>
      obtain ⟨s₁, hact⟩ := act_of_apply happly
      obtain ⟨e, hremove, -⟩ := h.error_of_onTree rfl hact
      rcases hc with ⟨htemp, ino, -, hlookup⟩ | ⟨ctx, path, hcall, -⟩
      · have hname : name ≠ [] := by
          rw [temporary_eq hother] at htemp
          exact Option.some.inj htemp ▸ temporaryName_ne_nil _ _
        exact absurd hremove (Tree.remove_file hname hlookup)
      · rw [hcall] at hother
        exact nomatch hother

/-- A link fails only because somebody else has published. -/
theorem CreateOnly.link_exist (h : CreateOnly p path tree) {a b : Str} {err : Err}
    (hc : Permitted p n s (.link a b)) (happly : apply w n (.link a b) (some err) s = some s')
    (hroot : (p.calls n).target ≠ some .root) : err.is .exist = true := by
  obtain ⟨s₁, hact⟩ := act_of_apply happly
  obtain ⟨e, hlink, rfl⟩ := h.error_of_onTree rfl hact
  obtain ⟨-, ⟨other, hother, rfl⟩, ino, hready⟩ := hc
  have htemp := hready.temp
  rw [temporary_eq hother, Option.some.injEq] at htemp
  have hform : NormalForm other.value := Path.normalForm fun hrooted ↦ hroot (hrooted ▸ hother)
  -- the temporary file is there, so the directory of both names exists
  have hparents : ∀ x ∈ ancestors other.value, s.tree.lookup x = some .dir := by
    intro x hx
    have hmem := mem_ancestors_temporaryName (w.random n) hform hx
    exact s.tree.parents a _ hready.lookup x (htemp ▸ hmem)
  have hname : a ≠ [] := htemp ▸ temporaryName_ne_nil _ _
  rw [Tree.link_error hname hready.lookup hform.ne_nil hparents hlink]
  rfl

/-- The creation of the temporary file fails only because of its directory. -/
theorem CreateOnly.create_setsBack (h : CreateOnly p path tree) (hfresh : FreshNames p s)
    {name : Str} {err : Err} (hc : Permitted p n s (.create name))
    (happly : apply w n (.create name) (.error err) s = some s') : err.is .exist = false := by
  obtain ⟨s₁, hact⟩ := act_of_apply happly
  obtain ⟨hfail, -⟩ := Option.ite_none_right_eq_some.mp hact
  rw [h.faults_eq_false rfl] at hfail
  obtain ⟨e, hcreate, rfl⟩ := error_of_mayFail hfail
  have hnone : s.tree.lookup name = none := by
    by_contra hsome
    obtain ⟨node, hnode⟩ := Option.ne_none_iff_exists'.mp hsome
    obtain ⟨ino, -, hauthor⟩ := hfresh n name node hc.1 hnode
    exact hc.2 ino hauthor
  rcases Tree.create_error hnone hcreate with rfl | rfl | rfl <;> rfl

/-- A create-only call fails only because of its source, its context or a
directory. -/
theorem CreateOnly.failed_of_step (h : CreateOnly p path tree) (hfresh : FreshNames p s)
    (hpath : (p.calls n).target = some path) (hroot : path ≠ .root)
    (hcreate : (p.calls n).overwrites = false) (hc : Permitted p n s c)
    (happly : apply w n c r s = some s') (hfailed : (s'.progress n).failed = true) :
    (s.progress n).failed = true ∨ c.setsBack r = true := by
  rw [progress_of_step happly, Function.update_self] at hfailed
  obtain ⟨s₁, hact⟩ := act_of_apply happly
  cases c with
  | ctxErr | lstat | stat | mkdir | openFile | readFile | source =>
      exact Bool.or_eq_true_iff.mp hfailed
  | ctxDone | cancel | useStream | closeStream =>
      exact .inl ((Bool.or_false _).symm.trans hfailed)
  | random =>
      cases r with
      | ok bytes => exact .inl ((Bool.or_false _).symm.trans hfailed)
      | error err =>
          obtain ⟨hfaults, -⟩ := Option.ite_none_right_eq_some.mp hact
          cases hfaults.symm.trans (h.faults_eq_false rfl)
  | create name =>
      cases r with
      | ok ino => exact .inl ((Bool.or_false _).symm.trans hfailed)
      | error err =>
          refine .inr ?_
          rw [Cmd.setsBack, h.create_setsBack hfresh hc happly]
          rfl
  | writeFile ino bytes =>
      obtain ⟨⟨-, hfaults | rfl⟩, -⟩ := Option.ite_none_right_eq_some.mp hact
      · cases hfaults.symm.trans (h.faults_eq_false rfl)
      · exact .inl (by simpa [Progress.after, Cmd.fails] using hfailed)
  | sync ino =>
      obtain ⟨hfaults | rfl, -⟩ := Option.ite_none_right_eq_some.mp hact
      · cases hfaults.symm.trans (h.faults_eq_false rfl)
      · exact .inl ((Bool.or_false _).symm.trans hfailed)
  | closeFile ino =>
      obtain ⟨hfaults | hclosed | rfl, -⟩ := Option.ite_none_right_eq_some.mp hact
      · cases hfaults.symm.trans (h.faults_eq_false rfl)
      · exact .inl (by simpa [Progress.after, hclosed] using hfailed)
      · exact .inl (by simpa [Progress.after] using hfailed)
  | link a b =>
      cases r with
      | none => exact .inl hfailed
      | some err =>
          have hexist := h.link_exist hc happly (hpath ▸ fun heq ↦ hroot (Option.some.inj heq))
          exact .inl (by simpa [Progress.after, hexist] using hfailed)
  | rename a b => cases hcreate.symm.trans hc.1
  | renameNoReplace a b =>
      obtain ⟨-, -, ctx, source, destination, options, hcall, -⟩ := hc
      rw [hcall] at hpath
      cases hpath
  | remove name =>
      obtain rfl := h.remove_eq_none hpath hc happly
      exact .inl ((Bool.or_false _).symm.trans hfailed)

/-! ## The publisher -/

/-- A call that names the path neither replaces, deletes nor moves anything. -/
theorem CreateOnly.harmless (h : CreateOnly p path tree) (hpath : path ∈ (p.calls n).paths) :
    (p.calls n).overwrites = false ∧ (∀ ctx other, p.calls n ≠ .delete ctx other) ∧
      ∀ ctx source destination options, p.calls n ≠ .move ctx source destination options := by
  rcases h.exclusive n hpath with ⟨htarget, hcreate⟩ | ⟨ctx, hcall⟩ | ⟨ctx, hcall⟩
  · refine ⟨hcreate, fun ctx other hcall ↦ ?_, fun ctx source destination options hcall ↦ ?_⟩
    · rw [hcall] at htarget
      exact nomatch htarget
    · rw [hcall] at htarget
      exact nomatch htarget
  · rw [hcall]
    exact ⟨rfl, nofun, nofun⟩
  · rw [hcall]
    exact ⟨rfl, nofun, nofun⟩

/-- Nobody takes a file away from the path. -/
theorem CreateOnly.not_departs (h : CreateOnly p path tree) (hm : path ∈ (p.calls m).paths)
    {ino : Nat} : ¬Departs p n s s' path.value ino := by
  intro hgone
  cases hgone with
  | temporary htemp => exact p.apart m n path hm htemp
  | @deleted ctx other hcall hvalue =>
      obtain rfl := Path.ext hvalue
      have hpath : path ∈ (p.calls n).paths := by
        rw [hcall]
        exact List.mem_singleton_self _
      exact (h.harmless hpath).2.1 ctx path hcall
  | replaced hoverwrites hpath hvalue =>
      obtain rfl := Path.ext hvalue
      exact nomatch hoverwrites.symm.trans (h.harmless hpath).1
  | moved hmoves =>
      obtain ⟨other, hother, hvalue⟩ := hmoves.mem_paths.1
      obtain rfl := Path.ext hvalue
      obtain ⟨-, ctx, source, destination, options, hcall, -⟩ := hmoves
      exact (h.harmless hother).2.2 ctx source destination options hcall

/-- A create-only call publishes by its link. -/
theorem published_of_step (hpath : (p.calls n).target = some path)
    (hcreate : (p.calls n).overwrites = false) (hc : Permitted p m s c)
    (happly : apply w m c r s = some s') (hbefore : (s.progress n).committed = false)
    (hcommitted : (s'.progress n).committed = true) :
    ∃ ino, s.author ino = some n ∧ s'.author = s.author ∧ s.tree.lookup path.value = none ∧
      s'.tree.lookup path.value = some (.file ino) := by
  rw [progress_of_step happly, Function.update_apply] at hcommitted
  split at hcommitted
  · rename_i hmn
    subst hmn
    cases c with
    | link a b =>
        cases r with
        | some err =>
            dsimp only [Progress.after] at hcommitted
            split at hcommitted <;> exact nomatch hbefore.symm.trans hcommitted
        | none =>
            obtain ⟨-, ⟨other, hother, rfl⟩, ino, hready⟩ := hc
            cases hpath.symm.trans hother
            obtain ⟨s₁, heffect, rfl⟩ := effect happly
            cases heffect with
            | quiet hquiet => exact nomatch hquiet
            | link htree =>
                obtain ⟨-, ino', hlookup, hnone, hall⟩ := Tree.lookup_link htree
                obtain rfl := Node.file.inj (Option.some.inj (hlookup.symm.trans hready.lookup))
                exact ⟨ino', hready.author, rfl, hnone, (hall _).trans (if_pos rfl)⟩
    | rename a b => exact nomatch hcreate.symm.trans hc.1
    | renameNoReplace a b =>
        obtain ⟨-, -, ctx, source, destination, options, hcall, -⟩ := hc
        rw [hcall] at hpath
        exact nomatch hpath
    | _ => exact nomatch hbefore.symm.trans hcommitted
  · exact nomatch hbefore.symm.trans hcommitted

/-- What is known of the create-only calls to a path. -/
structure CreateInv (p : Pool w) (path : Path) (trace : List (Label sig Nat)) (s : State) :
    Prop where
  fresh : FreshNames p s
  /-- The file of a call that has published is at the path. -/
  published : ∀ n, (p.calls n).target = some path → (s.progress n).committed = true →
    ∃ ino, s.author ino = some n ∧ s.tree.lookup path.value = some (.file ino)
  failed : ∀ n, (p.calls n).target = some path → (s.progress n).failed = true →
    ∃ c r, .call n c r ∈ trace ∧ c.setsBack r = true
  removes : ∀ n, (p.calls n).target = some path → ∀ r ∈ (s.progress n).removes, r = none

theorem CreateOnly.published_step (h : CreateOnly p path tree) (hs : Inv p s₀ s)
    (hc : Permitted p m s c) (happly : apply w m c r s = some s')
    (hpath : (p.calls n).target = some path) (hold : (s.progress n).committed = true →
      ∃ ino, s.author ino = some n ∧ s.tree.lookup path.value = some (.file ino))
    (hcommitted : (s'.progress n).committed = true) :
    ∃ ino, s'.author ino = some n ∧ s'.tree.lookup path.value = some (.file ino) := by
  have hmem := target_mem_paths hpath
  cases hbefore : (s.progress n).committed with
  | true =>
      obtain ⟨ino, hauthor, hlookup⟩ := hold hbefore
      have hlater := (later_of_step hs hc happly).author ino (hs.bound ino n hauthor)
      exact ⟨ino, hlater.trans hauthor,
        (departs hc happly hlookup).resolve_right (h.not_departs hmem)⟩
  | false =>
      obtain ⟨ino, hauthor, hsame, -, hlookup⟩ :=
        published_of_step hpath (h.harmless hmem).1 hc happly hbefore hcommitted
      exact ⟨ino, hsame ▸ hauthor, hlookup⟩

theorem CreateOnly.removes_step (h : CreateOnly p path tree) (hc : Permitted p m s c)
    (happly : apply w m c r s = some s') (hpath : (p.calls n).target = some path)
    (hold : ∀ r ∈ (s.progress n).removes, r = none) : ∀ r ∈ (s'.progress n).removes, r = none := by
  rw [progress_of_step happly, Function.update_apply]
  split
  · rename_i hmn
    subst hmn
    by_cases hremove : ∃ name, c = .remove name
    · obtain ⟨name, rfl⟩ := hremove
      obtain rfl := h.remove_eq_none hpath hc happly
      intro r hr
      rcases List.mem_append.mp hr with hr | hr
      · exact hold r hr
      · exact List.mem_singleton.mp hr
    · rw [removes_after fun name heq ↦ hremove ⟨name, heq⟩]
      exact hold
  · exact hold

theorem CreateInv.step (h : CreateOnly p path tree) (hroot : path ≠ .root)
    {trace : List (Label sig Nat)} (hs : Inv p s₀ s) (hc : Permitted p m s c)
    (happly : apply w m c r s = some s') (hinv : CreateInv p path trace s) :
    CreateInv p path (trace ++ [.call m c r]) s' where
  fresh := hinv.fresh.step h hs hc happly
  published n hpath := h.published_step hs hc happly hpath (hinv.published n hpath)
  failed n hpath hfailed := by
    have hlast : (.call m c r : Label sig Nat) ∈ trace ++ [.call m c r] := by simp
    by_cases hmn : n = m
    · subst hmn
      rcases h.failed_of_step hinv.fresh hpath hroot
        (h.harmless (target_mem_paths hpath)).1 hc happly
        hfailed with hbefore | hsets
      · obtain ⟨c', r', hmem, hsets⟩ := hinv.failed n hpath hbefore
        exact ⟨c', r', List.mem_append_left _ hmem, hsets⟩
      · exact ⟨c, r, hlast, hsets⟩
    · rw [progress_of_step happly, Function.update_of_ne hmn] at hfailed
      obtain ⟨c', r', hmem, hsets⟩ := hinv.failed n hpath hfailed
      exact ⟨c', r', List.mem_append_left _ hmem, hsets⟩
  removes n hpath := h.removes_step hc happly hpath (hinv.removes n hpath)

variable {a : Adapter} {ctx : Ctx → Option CtxErr} {data : Nat → Str}
  {trace : List (Label sig Nat)} {c : Config sig State fun _ : Nat ↦ Outcome}

theorem createInv_of_run (h : CreateOnly p path tree) (hroot : path ≠ .root)
    (hrun : Run (machine w) (start a p.calls { ctx, tree, data }) trace c) :
    CreateInv p path trace c.state := by
  refine (verified a ctx tree data).induct hrun ⟨?_, nofun, nofun, nofun⟩ ?_ ?_
  · intro n name node htemp hnode
    exact nomatch (h.free n name htemp).symm.trans hnode
  · intro trace m cmd r s s' hs hguar hinv
    exact hinv.step h hroot hs hguar.1 hguar.2
  · intro trace m s hinv
    refine ⟨hinv.fresh, hinv.published, fun n hpath hfailed ↦ ?_, hinv.removes⟩
    obtain ⟨cmd, r, hmem, hsets⟩ := hinv.failed n hpath hfailed
    exact ⟨cmd, r, List.mem_append_left _ hmem, hsets⟩

/-- In every run in which a path is only written by create-only calls, at most one
of them publishes; its whole source is at the path from then on; whoever returns
without having published, and was not stopped by its source, its context or a
directory, returns the error that the path exists; and no call that has returned
leaves its temporary file behind. -/
theorem create_only_publication (hcreate : CreateOnly p path tree) (hroot : path ≠ .root)
    (hrun : Run (machine w) (start a p.calls { ctx, tree, data }) trace c) :
    (∀ m n, (p.calls m).target = some path → (p.calls n).target = some path →
      (c.state.progress m).committed = true → (c.state.progress n).committed = true → m = n) ∧
    (∀ n, (p.calls n).target = some path → (c.state.progress n).committed = true →
      ∃ ino, c.state.tree.lookup path.value = some (.file ino) ∧
        (c.state.streams n).ended = true ∧ c.state.data ino = (c.state.streams n).received) ∧
    (∀ n outcome, (p.calls n).target = some path → c.threads n = .ret outcome →
      (c.state.progress n).committed = false →
      (∀ cmd r, .call n cmd r ∈ trace → cmd.setsBack r = false) →
      ∃ err, outcome.error = some err ∧ Refusal err) ∧
    ∀ n outcome name, (p.calls n).target = some path → c.threads n = .ret outcome →
      temporary w p.calls n = some name → c.state.tree.lookup name = none := by
  have hverified := (verified (p := p) a ctx tree data).run hrun
  have hinv := createInv_of_run hcreate hroot hrun
  refine ⟨?_, ?_, ?_, ?_⟩
  · intro m n hm hn hcm hcn
    obtain ⟨i, hi, hlookup⟩ := hinv.published m hm hcm
    obtain ⟨j, hj, hlookup'⟩ := hinv.published n hn hcn
    cases Option.some.inj (hlookup.symm.trans hlookup')
    exact Option.some.inj (hi.symm.trans hj)
  · intro n hn hcommitted
    obtain ⟨ino, hauthor, hlookup⟩ := hinv.published n hn hcommitted
    have hpublished := hverified.inv.names path.value ino
      (fun m ↦ p.apart n m path (target_mem_paths hn)) hlookup
    obtain ⟨hended, hdata⟩ := hpublished.settled n hauthor
    exact ⟨ino, hlookup, hended, hdata⟩
  · intro n outcome hn hret hcommitted hsets
    obtain ⟨r, hwrote, hok, herr⟩ := wrote_of_returned hn (hverified.returned hret)
    cases houtcome : outcome.error with
    | none => exact nomatch hcommitted.symm.trans (hwrote.ok (hok houtcome))
    | some err =>
        refine ⟨err, rfl, ?_⟩
        rcases hwrote.error err (herr err houtcome) with hrefusal | hfailed | hcommitted' | htarget
        · exact hrefusal
        · obtain ⟨cmd, r', hmem, hset⟩ := hinv.failed n hn hfailed
          exact nomatch (hsets cmd r' hmem).symm.trans hset
        · exact nomatch hcommitted.symm.trans hcommitted'
        · exact absurd (Option.some.inj (hn.symm.trans htarget)) hroot
  · intro n outcome name hn hret htemp
    obtain ⟨r, hwrote, -⟩ := wrote_of_returned hn (hverified.returned hret)
    by_contra hsome
    obtain ⟨node, hnode⟩ := Option.ne_none_iff_exists'.mp hsome
    obtain ⟨ino, rfl, hauthor⟩ := hinv.fresh n name node htemp hnode
    obtain ⟨hne, hall⟩ := hwrote.cleared name ino htemp ⟨hnode, hauthor⟩
    obtain ⟨r', hr'⟩ := List.exists_mem_of_ne_nil _ hne
    exact hall r' hr' (hinv.removes n hn r' hr')

end CreateOnly

def createTwice : Nat → Call
  | 0 | 1 => .write 0 .a { ifNoneMatch := true }
  | _ => .cancel 1 .canceled

/-- A world in which every call draws its own number. -/
def numbers : World := { random := fun n ↦ .replicate 16 (.ofNat n) }

theorem temporary_createTwice {n : Nat} {name : Str}
    (h : temporary numbers createTwice n = some name) :
    n < 2 ∧ name = temporaryName PathName.current (.replicate 16 (.ofNat n)) := by
  match n with
  | 0 => exact ⟨Nat.zero_lt_two, (Option.some.inj h).symm⟩
  | 1 => exact ⟨Nat.one_lt_two, (Option.some.inj h).symm⟩
  | _ + 2 => exact nomatch h

theorem paths_createTwice {n : Nat} {path : Path} (h : path ∈ (createTwice n).paths) :
    path = .a ∧ n < 2 := by
  match n with
  | 0 => exact ⟨List.mem_singleton.mp h, Nat.zero_lt_two⟩
  | 1 => exact ⟨List.mem_singleton.mp h, Nat.one_lt_two⟩
  | _ + 2 => exact nomatch h

def createTwicePool : Pool numbers where
  calls := createTwice
  streams m k h := by
    match m with
    | 0 | 1 => exact nomatch h
    | _ + 2 => exact nomatch h
  distinct m n name hm hn := by
    obtain ⟨hm, hname⟩ := temporary_createTwice hm
    obtain ⟨hn, hname'⟩ := temporary_createTwice hn
    have heq := hname.symm.trans hname'
    interval_cases m <;> interval_cases n <;> first | rfl | exact absurd heq (by decide)
  apart m n path hpath h := by
    obtain ⟨hn, hname⟩ := temporary_createTwice h
    rw [(paths_createTwice hpath).1] at hname
    interval_cases n <;> exact absurd hname (by decide)

theorem createOnly_createTwice : CreateOnly createTwicePool .a .empty where
  exclusive n h := by
    have hn := (paths_createTwice h).2
    interval_cases n <;> exact .inl ⟨rfl, rfl⟩
  free _ _ _ := rfl
  beneath m n name _ path hpath := by
    rw [(paths_createTwice hpath).1]
    have hnone : ancestors Path.a.value = [] := by decide
    exact hnone ▸ List.not_mem_nil
  faults _ := nofun

/-- Both see that the path is free, both fill a file, and the second link fails. -/
theorem createTwice_publication :
    ∃ trace c, Run (machine numbers) (start ⟨.allowInternalSymlinks⟩ createTwicePool.calls
        { tree := .empty, data := fun _ ↦ [] }) trace c ∧
      c.threads 1 = .ret (.metadata (.error (preconditionFailed .a))) ∧
      ∃ ino, c.state.tree.lookup Path.a.value = some (.file ino) ∧
        (c.state.streams 0).ended = true ∧ c.state.data ino = (c.state.streams 0).received := by
  let source : Nat → Str → Str × Option Err := fun n received ↦
    if received = [] then ([.ofNat n], none) else ([], some (.sentinel .eof))
  obtain ⟨trace, c, hexec, hcommitted, hret⟩ : ∃ trace c,
      (machine numbers).exec (fun _ _ ↦ True) (answer numbers source)
        (.replicate 14 0 ++ .replicate 14 1 ++ .replicate 5 0 ++ .replicate 3 1)
        (start ⟨.allowInternalSymlinks⟩ createTwicePool.calls
          { tree := .empty, data := fun _ ↦ [] }) = some (trace, c) ∧
      (c.state.progress 0).committed = true ∧
      c.threads 1 = .ret (.metadata (.error (preconditionFailed .a))) := ⟨_, _, rfl, rfl, rfl⟩
  have hrun := (Machine.run_of_exec hexec).run
  have hcreate := create_only_publication createOnly_createTwice (by decide) hrun
  exact ⟨trace, c, hrun, hret, hcreate.2.1 0 rfl hcommitted⟩

end GoFilesystem.Local
