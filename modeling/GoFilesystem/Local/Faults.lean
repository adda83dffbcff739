import GoFilesystem.Local.Publication

/-!
# A write among faults

One `Write`, in a world in which every step may fail and the context may be
cancelled at any time.  Until a link or a rename has succeeded, the call touches
nothing but its temporary name and the directories above it; and once a step has
failed before that, no link or rename is attempted any more.
-/

namespace GoFilesystem.Local

open Go Conc Posix

/-- A name and the file it stands for are what they were. -/
structure Unchanged (s₀ s : State) (name : Str) : Prop where
  lookup : s.tree.lookup name = s₀.tree.lookup name
  data : ∀ ino, s₀.tree.lookup name = some (.file ino) → s.data ino = s₀.data ino

/-- A name stands for a file with everything that the source of a call returns up
to its end. -/
def HoldsSource (s : State) (n : Nat) (name : Str) : Prop :=
  ∃ ino, s.tree.lookup name = some (.file ino) ∧ (s.streams n).ended = true ∧
    s.data ino = (s.streams n).received

def Cmd.publishes : (c : Cmd) → c.Resp → Bool
  | .link _ _, (r : Option Err) | .rename _ _, (r : Option Err)
  | .renameNoReplace _ _, (r : Option Err) => r.isNone
  | _, _ => false

/-- One `Write`, and any number of cancellations. -/
def soleWrite (ctx : Ctx) (path : Path) (options : WriteOptions) (cancels : Nat → Ctx × CtxErr) :
    Nat → Call
  | 0 => .write ctx path options
  | n + 1 => .cancel (cancels n).1 (cancels n).2

variable {name : Str} {q : Progress}

section Steps

variable {w : World} {p : Pool w} {s₀ s s' : State} {n : Nat} {c : Cmd} {r : c.Resp}

/-- What a call with a target leaves alone: every name but its temporary one, its
target at the step that publishes, and the directories above it. -/
theorem lookup_of_step {path : Path} (hpath : (p.calls n).target = some path)
    (hc : Permitted p n s c) (happly : apply w n c r s = some s')
    (htemp : temporary w p.calls n = some name →
      ∃ ino, s.tree.lookup name = some (.file ino) ∧ s.author ino ≠ some n)
    (hbeneath : ∀ other ∈ (p.calls n).paths, name ∈ ancestors other.value →
      ∃ ino, s.tree.lookup name = some (.file ino)) (hcommitted : name = path.value →
      (s.progress n).committed = true ∨ (s'.progress n).committed = false) :
    s'.tree.lookup name = s.tree.lookup name := by
  have hmove : ∀ {a b}, ¬Moves p n s a b := by
    rintro a b ⟨-, ctx, source, destination, options, hcall, -⟩
    rw [hcall] at hpath
    cases hpath
  have htarget : ∀ {a b}, Publishes p n s a b → (s'.progress n).committed = true → name ≠ b := by
    rintro a b ⟨⟨other, hother, rfl⟩, ino, hready⟩ hafter rfl
    cases hpath.symm.trans hother
    rcases hcommitted rfl with hbefore | hnot
    · cases hready.committed.symm.trans hbefore
    · cases hnot.symm.trans hafter
  have hforeign : ∀ {ino}, temporary w p.calls n = some name →
      s.tree.lookup name = some (.file ino) → s.author ino ≠ some n := by
    intro ino hown hlookup
    obtain ⟨ino', hfile, hauthor⟩ := htemp hown
    cases Option.some.inj (hlookup.symm.trans hfile)
    exact hauthor
  obtain ⟨s₁, heffect, rfl⟩ := effect happly
  cases heffect with
  | quiet | write | openDir | openFile | read | eof | source => rfl
  | mkdir htree =>
      obtain ⟨-, hfile, hlookup⟩ := Tree.lookup_mkdir htree
      refine (hlookup name).trans (if_neg ?_)
      rintro rfl
      obtain ⟨other, hother, hmem⟩ := hc
      obtain ⟨ino, hino⟩ := hbeneath other hother hmem
      exact hfile ino hino
  | create htree =>
      obtain ⟨-, hnone, hlookup⟩ := Tree.lookup_create htree
      refine (hlookup name).trans (if_neg ?_)
      rintro rfl
      obtain ⟨ino, hfile, -⟩ := htemp hc.1
      cases hnone.symm.trans hfile
  | link htree =>
      obtain ⟨-, ino, -, -, hlookup⟩ := Tree.lookup_link htree
      exact (hlookup name).trans (if_neg (htarget hc.2 (by simp [Progress.after])))
  | rename htree =>
      have hpublishes := hc.2.resolve_right hmove
      obtain ⟨-, ino, ha, -, ⟨-, rfl⟩ | hlookup⟩ := Tree.lookup_rename htree
      · rfl
      · refine (hlookup name).trans ?_
        rw [if_neg (htarget hpublishes (by simp [Progress.after])), if_neg]
        rintro rfl
        obtain ⟨-, ino', hready⟩ := hpublishes
        exact hforeign hready.temp hready.lookup hready.author
  | renameNoReplace htree => exact absurd hc.2 hmove
  | remove htree =>
      refine ((Tree.lookup_remove htree).2 name).trans (if_neg ?_)
      rintro rfl
      rcases hc with ⟨hown, ino, hauthor, hlookup⟩ | ⟨ctx, other, hcall, -⟩
      · exact hforeign hown hlookup hauthor
      · rw [hcall] at hpath
        cases hpath

/-- The bytes of a file change only by a write of the call that created it. -/
theorem data_of_foreign (hc : Permitted p n s c) (happly : apply w n c r s = some s') {ino : Nat}
    (hino : ino < s.tree.next) (hauthor : s.author ino ≠ some n) : s'.data ino = s.data ino := by
  obtain ⟨s₁, heffect, rfl⟩ := effect happly
  cases heffect with
  | create => exact Function.update_of_ne hino.ne ..
  | write =>
      refine Function.update_of_ne ?_ ..
      rintro rfl
      exact hauthor hc.1
  | _ => rfl

/-- A cancellation leaves the tree alone. -/
theorem tree_of_cancel {ctx : Ctx} {err : CtxErr} (hcall : p.calls n = .cancel ctx err)
    (hc : Permitted p n s c) (happly : apply w n c r s = some s') : s'.tree = s.tree := by
  have htemp : temporary w p.calls n = none := by
    rw [temporary, hcall]
    rfl
  have hpublish : ∀ {a b}, ¬Publishes p n s a b := by
    rintro a b ⟨-, ino, hready⟩
    cases htemp.symm.trans hready.temp
  have hmove : ∀ {a b}, ¬Moves p n s a b := by
    rintro a b ⟨-, ctx, source, destination, options, hmove, -⟩
    cases hcall.symm.trans hmove
  obtain ⟨s₁, heffect, rfl⟩ := effect happly
  cases heffect with
  | quiet | write | openDir | openFile | read | eof | source => rfl
  | mkdir =>
      obtain ⟨path, hpath, -⟩ := hc
      rw [hcall] at hpath
      cases hpath
  | create => cases htemp.symm.trans hc.1
  | link => exact absurd hc.2 hpublish
  | rename => exact absurd hc.2 (not_or_intro hpublish hmove)
  | renameNoReplace => exact absurd hc.2 hmove
  | remove =>
      rcases hc with ⟨hown, -⟩ | ⟨ctx, path, hdelete, -⟩
      · cases htemp.symm.trans hown
      · cases hcall.symm.trans hdelete

theorem committed_after_iff (hq : q.committed = false) :
    (q.after c r).committed = c.publishes r := by
  cases c with
  | link a b =>
      cases r with
      | none => rfl
      | some err =>
          dsimp only [Progress.after]
          split <;> exact hq
  | rename a b | renameNoReplace a b =>
      cases r with
      | none => rfl
      | some err => exact hq
  | _ => exact hq

/-- Once a step has failed, nothing is published any more. -/
def Stopped (q : Progress) : Prop :=
  q.committed = false ∧ (q.failed = true ∨ q.refused = true)

theorem stopped_after (hq : Stopped q) (hc : c.publishes r = false) : Stopped (q.after c r) := by
  obtain ⟨hcommitted, hstopped⟩ := hq
  refine ⟨(committed_after_iff hcommitted).trans hc, ?_⟩
  cases c with
  | link a b =>
      cases r with
      | none => exact hstopped
      | some err =>
          dsimp only [Progress.after]
          split
          · exact .inr rfl
          · exact .inl rfl
  | rename a b | renameNoReplace a b =>
      cases r with
      | none => exact hstopped
      | some err => exact .inl rfl
  | _ => exact hstopped.imp_left fun hfailed ↦ by simp [Progress.after, hfailed]

/-- A failure stops a call, unless it is to close a file that is closed already. -/
theorem stopped_of_fails (hq : q.committed = false) (hfails : c.fails r = true)
    (hclosed : ∀ ino, c = .closeFile ino → q.closed = false) : Stopped (q.after c r) := by
  have hpublishes : c.publishes r = false := by
    cases c with
    | link | rename | renameNoReplace =>
        cases r with
        | none => exact nomatch hfails
        | some err => rfl
    | _ => rfl
  refine ⟨(committed_after_iff hq).trans hpublishes, ?_⟩
  cases c with
  | link a b =>
      cases r with
      | none => exact nomatch hfails
      | some err =>
          dsimp only [Progress.after]
          split
          · exact .inr rfl
          · exact .inl rfl
  | rename a b | renameNoReplace a b =>
      cases r with
      | none => exact nomatch hfails
      | some err => exact .inl rfl
  | closeFile ino =>
      have hsome : Option.isSome r = true := hfails
      exact .inl (by simp [Progress.after, hclosed ino rfl, hsome])
  | remove name =>
      have hsome : Option.isSome r = true := hfails
      exact .inl (by simp [Progress.after, hsome])
  | _ => exact .inl (by simp [Progress.after, hfails])

theorem Stopped.step {path : Path} (hpath : (p.calls n).target = some path)
    (hc : Permitted p n s c) (h : Stopped (s.progress n)) : c.publishes r = false := by
  have hready : ∀ {a b}, ¬Publishes p n s a b := by
    rintro a b ⟨-, ino, hready⟩
    rcases h.2 with hfailed | hrefused
    · exact nomatch hready.failed.symm.trans hfailed
    · exact nomatch hready.refused.symm.trans hrefused
  have hmove : ∀ {a b}, ¬Moves p n s a b := by
    rintro a b ⟨-, ctx, source, destination, options, hcall, -⟩
    rw [hcall] at hpath
    exact nomatch hpath
  cases c with
  | link => exact absurd hc.2 hready
  | rename => exact absurd hc.2 (not_or_intro hready hmove)
  | renameNoReplace => exact absurd hc.2 hmove
  | _ => rfl

end Steps

section Faults

variable {w : World} (p : Pool w) (path : Path) (s₀ : State)

/-- One call writes to the path, and the others cancel contexts. -/
structure Sole : Prop where
  write : ∃ ctx options, p.calls 0 = .write ctx path options
  cancel : ∀ n ≠ 0, ∃ ctx err, p.calls n = .cancel ctx err

/-- What is known of the call and of the files that were there before it. -/
structure FaultInv (trace : List (Label sig Nat)) (s : State) : Prop where
  next : s₀.tree.next ≤ s.tree.next
  inodes : ∀ ino < s₀.tree.next, s.author ino = none ∧ s.data ino = s₀.data ino
  others : ∀ name ino, name ≠ path.value → s₀.tree.lookup name = some (.file ino) →
    s.tree.lookup name = some (.file ino)
  unpublished : (s.progress 0).committed = false →
    s.tree.lookup path.value = s₀.tree.lookup path.value
  published : (s.progress 0).committed = true →
    ∃ ino, s.author ino = some 0 ∧ s.tree.lookup path.value = some (.file ino)
  committed : (s.progress 0).committed = true → ∃ c r, .call 0 c r ∈ trace ∧ c.publishes r = true
  closed : (s.progress 0).closed = true → ∃ ino r, .call 0 (.closeFile ino) r ∈ trace
  removes : ∀ r, r ∈ (s.progress 0).removes ↔ ∃ name, .call 0 (.remove name) r ∈ trace
  removed : ∀ name r, .call 0 (.remove name) r ∈ trace → temporary w p.calls 0 = some name
  temp : ∀ name node, temporary w p.calls 0 = some name → s.tree.lookup name = some node →
    s₀.tree.lookup name = some node ∨ ∃ ino, node = .file ino ∧ s.author ino = some 0

variable {p path s₀} {s s' : State} {trace : List (Label sig Nat)} {c : Cmd} {r : c.Resp}

theorem Sole.target (h : Sole p path) : (p.calls 0).target = some path := by
  obtain ⟨ctx, options, hcall⟩ := h.write
  rw [hcall]
  rfl

theorem Sole.paths (h : Sole p path) : (p.calls 0).paths = [path] := by
  obtain ⟨ctx, options, hcall⟩ := h.write
  rw [hcall]
  rfl

/-- The temporary name does not stand above the path. -/
theorem Sole.temporary_notMem (h : Sole p path) (htemp : temporary w p.calls 0 = some name) :
    name ∉ ancestors path.value := by
  intro hmem
  rw [temporary, h.target] at htemp
  have hform : NormalForm path.value := by
    refine Path.normalForm ?_
    rintro rfl
    cases hmem
  have hself := mem_ancestors_temporaryName (w.random 0) hform hmem
  rw [← Option.some.inj htemp] at hself
  exact notMem_ancestors_self _ hself

theorem FaultInv.initial (ctx : Ctx → Option CtxErr) (tree : Tree) (data : Nat → Str) :
    FaultInv p path { ctx, tree, data } [] { ctx, tree, data } where
  next := le_rfl
  inodes _ _ := ⟨rfl, rfl⟩
  others _ _ _ h := h
  unpublished _ := rfl
  published := nofun
  committed := nofun
  closed := nofun
  removes _ := ⟨nofun, nofun⟩
  removed := nofun
  temp _ _ _ h := .inl h

theorem closed_after (h : (q.after c r).closed = true) :
    q.closed = true ∨ ∃ ino, c = .closeFile ino := by
  cases c with
  | closeFile ino => exact .inr ⟨ino, rfl⟩
  | link a b =>
      cases r with
      | none => exact .inl h
      | some err =>
          dsimp only [Progress.after] at h
          split at h <;> exact .inl h
  | rename a b | renameNoReplace a b =>
      cases r with
      | none => exact .inl h
      | some err => exact .inl h
  | _ => exact .inl h

theorem mem_removes_after {n : Nat} {r' : Option Err} :
    r' ∈ (q.after c r).removes ↔ r' ∈ q.removes ∨
      ∃ name, (.call n (.remove name) r' : Label sig Nat) = .call n c r := by
  by_cases hc : ∃ name, c = .remove name
  · obtain ⟨name, rfl⟩ := hc
    refine List.mem_append.trans (or_congr_right (List.mem_singleton.trans ?_))
    refine ⟨fun h ↦ ⟨name, h ▸ rfl⟩, ?_⟩
    rintro ⟨name', h⟩
    exact eq_of_heq (Label.call.inj h).2.2
  · rw [removes_after fun name heq ↦ hc ⟨name, heq⟩]
    refine ⟨.inl, fun h ↦ h.resolve_right ?_⟩
    rintro ⟨name, h⟩
    exact hc ⟨name, (Label.call.inj h).2.1.symm⟩

theorem mem_append_singleton_of_ne {l l' : Label sig Nat} (h : l ≠ l') :
    l ∈ trace ++ [l'] ↔ l ∈ trace := by
  rw [List.mem_append, List.mem_singleton, or_iff_left h]

/-- A step of somebody else. -/
theorem FaultInv.other (hinv : FaultInv p path s₀ trace s) (hs : Inv p s₀ s) {l : Label sig Nat}
    (hl : ∀ c r, .call 0 c r ≠ l) (htree : s'.tree = s.tree)
    (hprogress : s'.progress 0 = s.progress 0)
    (hauthor : ∀ ino < s.tree.next, s'.author ino = s.author ino)
    (hdata : ∀ ino < s.tree.next, s.author ino = none → s'.data ino = s.data ino) :
    FaultInv p path s₀ (trace ++ [l]) s' where
  next := htree ▸ hinv.next
  inodes ino hino := by
    obtain ⟨hnone, hsame⟩ := hinv.inodes ino hino
    have hbound := hino.trans_le hinv.next
    exact ⟨(hauthor ino hbound).trans hnone, (hdata ino hbound hnone).trans hsame⟩
  others name ino hname hlookup := htree ▸ hinv.others name ino hname hlookup
  unpublished hcommitted := htree ▸ hinv.unpublished (hprogress ▸ hcommitted)
  published hcommitted := by
    obtain ⟨ino, hown, hlookup⟩ := hinv.published (hprogress ▸ hcommitted)
    exact ⟨ino, (hauthor ino (hs.bound ino 0 hown)).trans hown, htree ▸ hlookup⟩
  committed hcommitted := by
    obtain ⟨c, r, hmem, hpublishes⟩ := hinv.committed (hprogress ▸ hcommitted)
    exact ⟨c, r, List.mem_append_left _ hmem, hpublishes⟩
  closed hclosed := by
    obtain ⟨ino, r, hmem⟩ := hinv.closed (hprogress ▸ hclosed)
    exact ⟨ino, r, List.mem_append_left _ hmem⟩
  removes r := by
    rw [hprogress, hinv.removes r]
    exact exists_congr fun name ↦ (mem_append_singleton_of_ne (hl _ _)).symm
  removed name r hmem := hinv.removed name r ((mem_append_singleton_of_ne (hl _ _)).mp hmem)
  temp name node htemp hlookup := by
    rw [htree] at hlookup
    refine (hinv.temp name node htemp hlookup).imp_right ?_
    rintro ⟨ino, hnode, hown⟩
    exact ⟨ino, hnode, (hauthor ino (hs.bound ino 0 hown)).trans hown⟩

theorem FaultInv.cancel (hinv : FaultInv p path s₀ trace s) (hsole : Sole p path) (hs : Inv p s₀ s)
    {n : Nat} (hn : n ≠ 0) (hc : Permitted p n s c) (happly : apply w n c r s = some s') :
    FaultInv p path s₀ (trace ++ [.call n c r]) s' := by
  obtain ⟨ctx, err, hcall⟩ := hsole.cancel n hn
  refine hinv.other hs ?_ (tree_of_cancel hcall hc happly) ?_ (later_of_step hs hc happly).author ?_
  · rintro c' r' heq
    exact hn (Label.call.inj heq).1.symm
  · rw [progress_of_step happly, Function.update_of_ne hn.symm]
  · intro ino hino hnone
    exact data_of_foreign hc happly hino (hnone ▸ nofun)

theorem published_of_publishes (hsole : Sole p path) (hc : Permitted p 0 s c)
    (happly : apply w 0 c r s = some s') (hpublishes : c.publishes r = true) :
    ∃ ino, s'.author ino = some 0 ∧ s'.tree.lookup path.value = some (.file ino) := by
  have hmove : ∀ {a b}, ¬Moves p 0 s a b := by
    rintro a b ⟨-, ctx, source, destination, options, hcall, -⟩
    obtain ⟨ctx', options', hcall'⟩ := hsole.write
    exact nomatch hcall.symm.trans hcall'
  have htarget : ∀ {a b}, Publishes p 0 s a b → b = path.value ∧ ∃ ino, Ready p 0 s a ino := by
    rintro a b ⟨⟨other, hother, rfl⟩, hready⟩
    exact ⟨congrArg Path.value (Option.some.inj (hother.symm.trans hsole.target)), hready⟩
  obtain ⟨s₁, heffect, rfl⟩ := effect happly
  cases heffect with
  | link htree =>
      obtain ⟨rfl, ino, hready⟩ := htarget hc.2
      obtain ⟨-, ino', ha, -, hlookup⟩ := Tree.lookup_link htree
      obtain rfl := Node.file.inj (Option.some.inj (ha.symm.trans hready.lookup))
      exact ⟨ino', hready.author, (hlookup _).trans (if_pos rfl)⟩
  | rename htree =>
      obtain ⟨rfl, ino, hready⟩ := htarget (hc.2.resolve_right hmove)
      obtain ⟨-, ino', ha, -, hlookup⟩ := Tree.lookup_rename htree
      obtain rfl := Node.file.inj (Option.some.inj (ha.symm.trans hready.lookup))
      rcases hlookup with ⟨hsame, rfl⟩ | hlookup
      · exact ⟨ino', hready.author, hsame⟩
      · exact ⟨ino', hready.author, (hlookup _).trans (if_pos rfl)⟩
  | renameNoReplace => exact absurd hc.2 hmove
  | @quiet c r hquiet =>
      cases c with
      | link | rename | renameNoReplace =>
          cases r with
          | none => exact nomatch hquiet
          | some err => exact nomatch hpublishes
      | _ => exact nomatch hpublishes
  | _ => exact nomatch hpublishes

theorem FaultInv.temp_step (hinv : FaultInv p path s₀ trace s) (hsole : Sole p path)
    (hs : Inv p s₀ s) (hc : Permitted p 0 s c) (happly : apply w 0 c r s = some s') {node : Node}
    (htemp : temporary w p.calls 0 = some name) (hlookup : s'.tree.lookup name = some node) :
    s₀.tree.lookup name = some node ∨ ∃ ino, node = .file ino ∧ s'.author ino = some 0 := by
  have hlater := (later_of_step hs hc happly).author
  have hold : s.tree.lookup name = some node →
      s₀.tree.lookup name = some node ∨ ∃ ino, node = .file ino ∧ s'.author ino = some 0 := by
    intro hlookup
    refine (hinv.temp name node htemp hlookup).imp_right ?_
    rintro ⟨ino, hnode, hown⟩
    exact ⟨ino, hnode, (hlater ino (hs.bound ino 0 hown)).trans hown⟩
  cases node with
  | dir =>
      rcases dir_of_step hc happly hlookup with hsame | ⟨other, hother, hmem⟩
      · exact hold hsame
      · rw [hsole.paths, List.mem_singleton] at hother
        exact absurd (hother ▸ hmem) (hsole.temporary_notMem htemp)
  | file ino =>
      rcases arrives hc happly hlookup with hsame | hnew
      · exact hold hsame
      · cases hnew with
        | created _ _ hauthor => exact .inr ⟨ino, rfl, hauthor⟩
        | published _ hpath hvalue =>
            exact absurd (hvalue ▸ htemp) (p.apart 0 0 _ (target_mem_paths hpath))
        | moved hmoves => exact absurd htemp (hmoves.temporary_ne.2 0)

/-- A step of the call itself. -/
theorem FaultInv.own (hinv : FaultInv p path s₀ trace s) (hsole : Sole p path) (hs : Inv p s₀ s)
    (hc : Permitted p 0 s c) (happly : apply w 0 c r s = some s') :
    FaultInv p path s₀ (trace ++ [.call 0 c r]) s' := by
  have hlater := later_of_step hs hc happly
  have hprogress : s'.progress 0 = (s.progress 0).after c r := by
    rw [progress_of_step happly, Function.update_self]
  have hlast : (.call 0 c r : Label sig Nat) ∈ trace ++ [.call 0 c r] :=
    List.mem_append_right _ (List.mem_singleton_self _)
  have hdestination : (s.progress 0).committed = true ∨ (s'.progress 0).committed = false →
      s'.tree.lookup path.value = s.tree.lookup path.value := by
    intro hcommitted
    refine lookup_of_step hsole.target hc happly ?_ ?_ fun _ ↦ hcommitted
    · exact fun htemp ↦ absurd htemp (p.apart 0 0 path (target_mem_paths hsole.target))
    · intro other hother hmem
      rw [hsole.paths, List.mem_singleton] at hother
      exact absurd (hother ▸ hmem) (notMem_ancestors_self _)
  refine ⟨hinv.next.trans hlater.next, ?_, ?_, ?_, ?_, ?_, ?_, ?_, ?_, ?_⟩
  · intro ino hino
    obtain ⟨hnone, hsame⟩ := hinv.inodes ino hino
    have hbound := hino.trans_le hinv.next
    exact ⟨(hlater.author ino hbound).trans hnone,
      (data_of_foreign hc happly hbound (hnone ▸ nofun)).trans hsame⟩
  · intro name ino hname hlookup
    have hthere := hinv.others name ino hname hlookup
    have hnone := (hinv.inodes ino (s₀.tree.bound name ino hlookup)).1
    refine (lookup_of_step hsole.target hc happly ?_ ?_ ?_).trans hthere
    · exact fun _ ↦ ⟨ino, hthere, hnone ▸ nofun⟩
    · exact fun _ _ _ ↦ ⟨ino, hthere⟩
    · exact fun heq ↦ absurd heq hname
  · intro hafter
    have hbefore : (s.progress 0).committed = false := by
      rw [← Bool.not_eq_true] at hafter ⊢
      exact fun hcommitted ↦ hafter (committed_of_step happly hcommitted)
    exact (hdestination (.inr hafter)).trans (hinv.unpublished hbefore)
  · intro hafter
    cases hbefore : (s.progress 0).committed with
    | true =>
        obtain ⟨ino, hown, hlookup⟩ := hinv.published hbefore
        exact ⟨ino, (hlater.author ino (hs.bound ino 0 hown)).trans hown,
          (hdestination (.inl hbefore)).trans hlookup⟩
    | false =>
        rw [hprogress, committed_after_iff hbefore] at hafter
        exact published_of_publishes hsole hc happly hafter
  · intro hafter
    cases hbefore : (s.progress 0).committed with
    | true =>
        obtain ⟨c', r', hmem, hpublishes⟩ := hinv.committed hbefore
        exact ⟨c', r', List.mem_append_left _ hmem, hpublishes⟩
    | false =>
        rw [hprogress, committed_after_iff hbefore] at hafter
        exact ⟨c, r, hlast, hafter⟩
  · intro hclosed
    rw [hprogress] at hclosed
    rcases closed_after hclosed with hbefore | ⟨ino, rfl⟩
    · obtain ⟨ino, r', hmem⟩ := hinv.closed hbefore
      exact ⟨ino, r', List.mem_append_left _ hmem⟩
    · exact ⟨ino, r, hlast⟩
  · intro r'
    rw [hprogress, mem_removes_after (n := 0), hinv.removes r', ← exists_or]
    exact exists_congr fun name ↦ by rw [List.mem_append, List.mem_singleton]
  · intro name r' hmem
    rcases List.mem_append.mp hmem with hmem | hmem
    · exact hinv.removed name r' hmem
    · obtain ⟨-, rfl, -⟩ := Label.call.inj (List.mem_singleton.mp hmem)
      rcases hc with ⟨htemp, -⟩ | ⟨ctx, other, hdelete, -⟩
      · exact htemp
      · obtain ⟨ctx', options, hcall⟩ := hsole.write
        exact nomatch hcall.symm.trans hdelete
  · exact fun name node htemp hlookup ↦ hinv.temp_step hsole hs hc happly htemp hlookup

variable {a : Adapter} {ctx : Ctx → Option CtxErr} {tree : Tree} {data : Nat → Str}
  {config config' : Config sig State fun _ : Nat ↦ Outcome}

theorem faultInv_of_run (hsole : Sole p path)
    (hrun : Run (machine w) (start a p.calls { ctx, tree, data }) trace config) :
    FaultInv p path { ctx, tree, data } trace config.state := by
  refine ((verified a ctx tree data).induct (J := fun trace s ↦ Inv p { ctx, tree, data } s ∧
    FaultInv p path { ctx, tree, data } trace s) hrun
      ⟨inv_initial ctx tree data, .initial ctx tree data⟩ ?_ ?_).2
  · rintro trace n cmd r s s' hs ⟨hc, happly⟩ ⟨-, hinv⟩
    refine ⟨hs.step hc happly, ?_⟩
    by_cases hn : n = 0
    · subst hn
      exact hinv.own hsole hs hc happly
    · exact hinv.cancel hsole hs hn hc happly
  · rintro trace n s ⟨hs, hinv⟩
    exact ⟨hs, hinv.other hs nofun rfl rfl (fun _ _ ↦ rfl) fun _ _ _ ↦ rfl⟩

/-- A failure before anything is published leaves the destination as it was. -/
theorem stopped_of_run (hsole : Sole p path)
    (hverified : Verified (protocol p s₀) (Returned p) config)
    (hrun : Run (machine w) config trace config') (h : Stopped (config.state.progress 0)) :
    Stopped (config'.state.progress 0) := by
  refine hverified.induct (J := fun _ s ↦ Stopped (s.progress 0)) hrun h ?_ fun _ _ _ hsame ↦ hsame
  rintro - n cmd r s s' - ⟨hc, happly⟩ hstopped
  rw [progress_of_step happly, Function.update_apply]
  split
  · rename_i hn
    subst hn
    exact stopped_after hstopped (hstopped.step hsole.target hc)
  · exact hstopped

theorem FaultInv.unchanged (hinv : FaultInv p path s₀ trace s)
    (h : s.tree.lookup name = s₀.tree.lookup name) : Unchanged s₀ s name where
  lookup := h
  data ino hino := (hinv.inodes ino (s₀.tree.bound name ino hino)).2

theorem FaultInv.holdsSource (hinv : FaultInv p path s₀ trace s) (hs : Inv p s₀ s)
    (hcommitted : (s.progress 0).committed = true)
    (hpath : ∀ n, temporary w p.calls n ≠ some path.value) :
    HoldsSource s 0 path.value := by
  obtain ⟨ino, hauthor, hlookup⟩ := hinv.published hcommitted
  obtain ⟨hended, hdata⟩ := (hs.names path.value ino hpath hlookup).settled 0 hauthor
  exact ⟨ino, hlookup, hended, hdata⟩

end Faults

section SoleWrite

variable {w : World} {ctx : Ctx} {path : Path} {options : WriteOptions}
  {cancels : Nat → Ctx × CtxErr}

theorem temporary_soleWrite {n : Nat}
    (h : temporary w (soleWrite ctx path options cancels) n = some name) :
    n = 0 ∧ name = temporaryName (PathName.dir path.value) (w.random 0) := by
  cases n with
  | zero => exact ⟨rfl, (Option.some.inj h).symm⟩
  | succ n => exact nomatch h

/-- The calls, if the name that is drawn is not the one of the destination. -/
def solePool (ctx : Ctx) (path : Path) (options : WriteOptions) (cancels : Nat → Ctx × CtxErr)
    (h : temporaryName (PathName.dir path.value) (w.random 0) ≠ path.value) : Pool w where
  calls := soleWrite ctx path options cancels
  streams m k hcall := by
    cases m with
    | zero => exact nomatch hcall
    | succ m => exact nomatch hcall
  distinct m n name hm hn := (temporary_soleWrite hm).1.trans (temporary_soleWrite hn).1.symm
  apart m n other hother htemp := by
    cases m with
    | zero =>
        obtain rfl := List.mem_singleton.mp hother
        exact h (temporary_soleWrite htemp).2.symm
    | succ m => exact nomatch hother

theorem sole_solePool (h : temporaryName (PathName.dir path.value) (w.random 0) ≠ path.value) :
    Sole (solePool ctx path options cancels h) path where
  write := ⟨ctx, options, rfl⟩
  cancel n hn := by
    cases n with
    | zero => exact absurd rfl hn
    | succ n => exact ⟨_, _, rfl⟩

variable {a : Adapter} {ctxs : Ctx → Option CtxErr} {tree : Tree} {data : Nat → Str}
  {trace : List (Label sig Nat)} {c : Config sig State fun _ : Nat ↦ Outcome}
  {result : Except Err Metadata}

/-- When a `Write` has returned, whatever has failed on the way, its destination is
what it was before or holds the whole source, and the latter if it returns nil.  If
a step fails before anything is published, the destination is what it was; to close
a file that is closed already is not a failure.  Every other file is what it was,
and the temporary name is free if it was, unless every attempt to remove the
temporary file has failed. -/
theorem write_faults
    (htemp : temporaryName (PathName.dir path.value) (w.random 0) ≠ path.value)
    (hrun : Run (machine w) (start a (soleWrite ctx path options cancels)
      { ctx := ctxs, tree, data }) trace c)
    (hret : c.threads 0 = .ret (.metadata result)) :
    (Unchanged { ctx := ctxs, tree, data } c.state path.value ∨
      HoldsSource c.state 0 path.value) ∧
    (result.isOk = true → HoldsSource c.state 0 path.value) ∧
    (∀ trace₁ c₁ cmd r c₂ trace₂, Run (machine w) (start a (soleWrite ctx path options cancels)
        { ctx := ctxs, tree, data }) trace₁ c₁ →
      Step (machine w) c₁ (.call 0 cmd r) c₂ → Run (machine w) c₂ trace₂ c →
      cmd.fails r = true →
      (∀ ino, cmd = .closeFile ino → ∀ i r', .call 0 (.closeFile i) r' ∉ trace₁) →
      (∀ cmd' r', .call 0 cmd' r' ∈ trace₁ → cmd'.publishes r' = false) →
      Unchanged { ctx := ctxs, tree, data } c.state path.value) ∧
    (∀ name ino, name ≠ path.value → tree.lookup name = some (.file ino) →
      Unchanged { ctx := ctxs, tree, data } c.state name) ∧
    ∀ name node, name = temporaryName (PathName.dir path.value) (w.random 0) →
      c.state.tree.lookup name = some node → tree.lookup name = some node ∨
        (∃ r, .call 0 (.remove name) r ∈ trace) ∧
          ∀ r, .call 0 (.remove name) r ∈ trace → r ≠ none := by
  let p := solePool ctx path options cancels htemp
  have hsole : Sole p path := sole_solePool htemp
  have hstart := verified (p := p) a ctxs tree data
  have hverified := hstart.run hrun
  have hinv := faultInv_of_run hsole hrun
  have hapart : ∀ n, temporary w p.calls n ≠ some path.value := fun n ↦
    p.apart 0 n path (target_mem_paths hsole.target)
  obtain ⟨r, heq, hwrote⟩ : ∃ r, Outcome.metadata result = .metadata r ∧ Wrote p 0 r c.state :=
    hverified.returned hret
  cases heq
  refine ⟨?_, ?_, ?_, ?_, ?_⟩
  · cases hcommitted : (c.state.progress 0).committed with
    | false => exact .inl (hinv.unchanged (hinv.unpublished hcommitted))
    | true => exact .inr (hinv.holdsSource hverified.inv hcommitted hapart)
  · exact fun hok ↦ hinv.holdsSource hverified.inv (hwrote.ok hok) hapart
  · intro trace₁ c₁ cmd r c₂ trace₂ hrun₁ hstep hrun₂ hfails hclosed hpublishes
    have hinv₁ := faultInv_of_run hsole hrun₁
    obtain ⟨hverified₂, -, happly⟩ := (hstart.run hrun₁).step hstep
    have hcommitted : (c₁.state.progress 0).committed = false := by
      rw [← Bool.not_eq_true]
      intro hcommitted
      obtain ⟨cmd', r', hmem, hpublished⟩ := hinv₁.committed hcommitted
      exact nomatch (hpublishes cmd' r' hmem).symm.trans hpublished
    have hstopped : Stopped (c₂.state.progress 0) := by
      rw [progress_of_step happly, Function.update_self]
      refine stopped_of_fails hcommitted hfails fun ino hcmd ↦ ?_
      rw [← Bool.not_eq_true]
      intro hbefore
      obtain ⟨i, r', hmem⟩ := hinv₁.closed hbefore
      exact hclosed ino hcmd i r' hmem
    have hlast := stopped_of_run hsole hverified₂ hrun₂ hstopped
    exact hinv.unchanged (hinv.unpublished hlast.1)
  · intro name ino hname hlookup
    exact hinv.unchanged ((hinv.others name ino hname hlookup).trans hlookup.symm)
  · rintro name node rfl hlookup
    refine (hinv.temp _ node rfl hlookup).imp_right ?_
    rintro ⟨ino, rfl, hauthor⟩
    obtain ⟨hne, hall⟩ := hwrote.cleared _ ino rfl ⟨hlookup, hauthor⟩
    refine ⟨?_, fun r hmem ↦ hall r ((hinv.removes r).mpr ⟨_, hmem⟩)⟩
    obtain ⟨r, hr⟩ := List.exists_mem_of_ne_nil _ hne
    obtain ⟨name, hmem⟩ := (hinv.removes r).mp hr
    exact ⟨r, (temporary_soleWrite (hinv.removed name r hmem)).2 ▸ hmem⟩

end SoleWrite

def faulty : World := { zeros with faults := fun _ ↦ true }

def broken : Err := .new "broken" []

/-- The responses of a root that can neither rename nor remove a file. -/
def stuck (n : Nat) (s : State) : (c : Cmd) → c.Resp
  | .rename _ _ | .remove _ => some broken
  | c => answer faulty oneByte n s c

/-- A `Write` that cannot publish its file, nor remove it. -/
theorem write_faults_stuck :
    ∃ trace c result, Run (machine faulty) (start ⟨.allowInternalSymlinks⟩
        (soleWrite 0 ⟨.lit "a", .inr (by decide)⟩ {} fun _ ↦ (0, .canceled))
        { tree := .empty, data := fun _ ↦ [] }) trace c ∧
      c.threads 0 = .ret (.metadata result) ∧ result.isOk = false ∧
      (Unchanged { tree := .empty, data := fun _ ↦ [] } c.state (.lit "a") ∨
        HoldsSource c.state 0 (.lit "a")) := by
  obtain ⟨trace, c, result, hexec, hret, hok⟩ : ∃ trace c result,
      (machine faulty).exec (fun _ _ ↦ True) stuck (.replicate 16 0)
        (start ⟨.allowInternalSymlinks⟩
          (soleWrite 0 ⟨.lit "a", .inr (by decide)⟩ {} fun _ ↦ (0, .canceled))
          { tree := .empty, data := fun _ ↦ [] }) = some (trace, c) ∧
      c.threads 0 = .ret (.metadata result) ∧ result.isOk = false := ⟨_, _, _, rfl, rfl, rfl⟩
  have hrun := (Machine.run_of_exec hexec).run
  exact ⟨trace, c, result, hrun, hret, hok, (write_faults (by decide) hrun hret).1⟩

/-- The responses of a root that cannot remove a file, with a source that fails after
its first byte. -/
def brokenSource (n : Nat) (s : State) : (c : Cmd) → c.Resp
  | .remove _ => some broken
  | .source => if (s.streams n).received = [] then (.lit "x", none) else ([], some broken)
  | c => answer faulty oneByte n s c

/-- If the name that is drawn is the one of the destination, then the destination
itself is the temporary file, and a part of the source stays there. -/
theorem write_partial_temporary :
    ∃ (path : Path) (trace : List (Label sig Nat)) (c : Config sig State fun _ : Nat ↦ Outcome)
      (result : Except Err Metadata),
      Run (machine faulty) (start ⟨.allowInternalSymlinks⟩
        (soleWrite 0 path {} fun _ ↦ (0, .canceled))
        { tree := .empty, data := fun _ ↦ [] }) trace c ∧
      c.threads 0 = .ret (.metadata result) ∧
      ¬Unchanged { tree := .empty, data := fun _ ↦ [] } c.state path.value ∧
      ¬HoldsSource c.state 0 path.value := by
  let path : Path := ⟨.lit ".filesystem-00000000000000000000000000000000.tmp", .inr (by decide)⟩
  obtain ⟨trace, c, result, hexec, hret, hlookup, hended⟩ : ∃ trace c result,
      (machine faulty).exec (fun _ _ ↦ True) brokenSource (.replicate 12 0)
        (start ⟨.allowInternalSymlinks⟩ (soleWrite 0 path {} fun _ ↦ (0, .canceled))
          { tree := .empty, data := fun _ ↦ [] }) = some (trace, c) ∧
      c.threads 0 = .ret (.metadata result) ∧
      c.state.tree.lookup path.value = some (.file 0) ∧ (c.state.streams 0).ended = false :=
    ⟨_, _, _, rfl, rfl, rfl, rfl⟩
  refine ⟨path, trace, c, result, (Machine.run_of_exec hexec).run, hret, ?_, ?_⟩
  · intro h
    exact nomatch hlookup.symm.trans h.lookup
  · rintro ⟨ino, -, hend, -⟩
    exact nomatch hended.symm.trans hend

end GoFilesystem.Local
