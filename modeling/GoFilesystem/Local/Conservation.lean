import GoFilesystem.Local.Publication
import Mathlib.Data.Set.Card

/-!
# Files are neither lost nor duplicated

Without overwriting and without `Delete`, a step does one of three things to the
names of a file that are not temporary ones: it leaves them alone, it exchanges
one for a name that was free, or it gives a file that had none its first.  So the
number of names of a file never changes again once there is one, and neither do
its bytes, however the calls interleave.

A `Move` without overwriting has one step that matters, and it returns nil exactly
if that step has succeeded.
-/

namespace GoFilesystem.Local

open Go Conc Posix

section Conservation

variable {w : World} (p : Pool w)

/-- No call replaces or deletes a file. -/
structure Conserving : Prop where
  overwrites : ∀ n, (p.calls n).overwrites = false
  delete : ∀ n ctx path, p.calls n ≠ .delete ctx path

/-- The names of a file, apart from temporary ones. -/
def namesOf (s : State) (ino : Nat) : Set Str :=
  {name | (∀ n, temporary w p.calls n ≠ some name) ∧ s.tree.lookup name = some (.file ino)}

/-- What a step of the call `n` does to the names of a file. -/
inductive NamesStep (n : Nat) (s s' : State) (ino : Nat) : Prop
  | same (h : namesOf p s' ino = namesOf p s ino)
  | moved {a b} (ha : a ∈ namesOf p s ino) (hb : b ∉ namesOf p s ino)
      (h : namesOf p s' ino = insert b (namesOf p s ino \ {a}))
  | published {b} (hnone : namesOf p s ino = ∅) (h : namesOf p s' ino = {b})

variable {p} {s₀ s s' : State} {n ino : Nat}

theorem names_eq (h : ∀ name, (∀ n, temporary w p.calls n ≠ some name) →
    (s'.tree.lookup name = some (.file ino) ↔ s.tree.lookup name = some (.file ino))) :
    namesOf p s' ino = namesOf p s ino := by
  ext name
  exact and_congr_right fun htemp ↦ h name htemp

/-- A file that is about to be published has no lasting name. -/
theorem Inv.names_of_ready (hs : Inv p s₀ s) {temp : Str} (h : Ready p n s temp ino) :
    namesOf p s ino = ∅ := by
  refine Set.eq_empty_of_forall_notMem fun name ⟨htemp, hname⟩ ↦ ?_
  exact htemp n (hs.alone ino n name h.author h.committed hname)

theorem names_of_move {a b : Str} {ino ino' : Nat} (hmoves : Moves p n s a b)
    (ha : s.tree.lookup a = some (.file ino')) (hb : s.tree.lookup b = none)
    (h : ∀ x, s'.tree.lookup x =
      if x = b then some (.file ino') else if x = a then none else s.tree.lookup x) :
    NamesStep p n s s' ino := by
  obtain ⟨htempa, htempb⟩ := hmoves.temporary_ne
  have hab : a ≠ b := by
    rintro rfl
    exact nomatch ha.symm.trans hb
  by_cases hino : ino = ino'
  · subst hino
    refine .moved ⟨htempa, ha⟩ (fun hmem ↦ nomatch hb.symm.trans hmem.2) ?_
    ext name
    simp only [namesOf, Set.mem_ofPred_eq, Set.mem_insert_iff, Set.mem_sdiff, Set.mem_singleton_iff]
    rw [h name]
    by_cases hnb : name = b
    · subst hnb
      simpa using htempb
    · by_cases hna : name = a <;> simp [hnb, hna, hab]
  · refine .same (names_eq fun name _ ↦ ?_)
    rw [h name]
    by_cases hnb : name = b
    · subst hnb
      simp [hb, Ne.symm hino]
    · by_cases hna : name = a
      · subst hna
        simp [hnb, ha, Ne.symm hino]
      · simp [hnb, hna]

theorem Conserving.names_step (h : Conserving p) (hs : Inv p s₀ s) {c : Cmd} {r : c.Resp}
    (hc : Permitted p n s c) (happly : apply w n c r s = some s') (ino : Nat) :
    NamesStep p n s s' ino := by
  obtain ⟨s₁, heffect, rfl⟩ := effect happly
  cases heffect with
  | quiet | write | openDir | openFile | read | eof | source => exact .same rfl
  | @mkdir made final tree htree =>
      obtain ⟨-, hfile, hlookup⟩ := Tree.lookup_mkdir htree
      refine .same (names_eq fun name _ ↦ ?_)
      dsimp only
      rw [hlookup name]
      split
      · rename_i heq
        exact iff_of_false nofun (heq ▸ hfile ino)
      · rfl
  | create htree =>
      obtain ⟨-, -, hlookup⟩ := Tree.lookup_create htree
      refine .same (names_eq fun name htemp ↦ ?_)
      dsimp only
      rw [hlookup name, if_neg]
      rintro rfl
      exact htemp n hc.1
  | @link a b tree htree =>
      obtain ⟨-, ino', ha, hb, hlookup⟩ := Tree.lookup_link htree
      obtain ⟨-, ⟨path, hpath, rfl⟩, ino'', hready⟩ := hc
      cases Option.some.inj (ha.symm.trans hready.lookup)
      by_cases hino : ino = ino'
      · subst hino
        refine .published (b := path.value) (hs.names_of_ready hready) ?_
        have hnone := Set.eq_empty_iff_forall_notMem.mp (hs.names_of_ready hready)
        refine Set.eq_singleton_iff_unique_mem.mpr ⟨⟨?_, (hlookup _).trans (if_pos rfl)⟩, ?_⟩
        · exact fun m ↦ p.apart n m path (target_mem_paths hpath)
        · rintro name ⟨htemp, hname⟩
          by_contra hne
          exact hnone name ⟨htemp, ((hlookup name).trans (if_neg hne)).symm.trans hname⟩
      · refine .same (names_eq fun name _ ↦ ?_)
        dsimp only
        rw [hlookup name]
        split
        · rename_i heq
          simp [heq, hb, Ne.symm hino]
        · rfl
  | rename => exact nomatch (h.overwrites n).symm.trans hc.1
  | renameNoReplace htree =>
      obtain ⟨-, ino', ha, hb, hlookup⟩ := Tree.lookup_renameNoReplace htree
      exact names_of_move hc.2 ha hb hlookup
  | remove htree =>
      refine .same (names_eq fun name htemp ↦ ?_)
      dsimp only
      rw [(Tree.lookup_remove htree).2 name, if_neg]
      rintro rfl
      rcases hc with ⟨hown, -⟩ | ⟨ctx, path, hcall, -⟩
      · exact htemp n hown
      · exact h.delete n ctx path hcall

theorem NamesStep.ncard_eq (h : NamesStep p n s s' ino) (hne : (namesOf p s ino).Nonempty) :
    (namesOf p s' ino).Nonempty ∧ (namesOf p s' ino).ncard = (namesOf p s ino).ncard := by
  cases h with
  | same h => exact h.symm ▸ ⟨hne, rfl⟩
  | moved ha hb h => exact h ▸ ⟨Set.insert_nonempty .., Set.ncard_exchange hb ha⟩
  | published hnone => exact absurd hnone hne.ne_empty

theorem NamesStep.subsingleton (h : NamesStep p n s s' ino) (hs : (namesOf p s ino).Subsingleton) :
    (namesOf p s' ino).Subsingleton := by
  cases h with
  | same h => exact h ▸ hs
  | moved ha hb h =>
      rw [h, hs.eq_singleton_of_mem ha, Set.sdiff_self, insert_empty_eq]
      exact Set.subsingleton_singleton
  | published hnone h => exact h ▸ Set.subsingleton_singleton

/-! ## Moves -/

variable {ctx : Ctx} {source destination : Path} {options : OverwriteOptions}

/-- The step by which a `Move` does its work. -/
theorem Conserving.moved_of_step (h : Conserving p)
    (hcall : p.calls n = .move ctx source destination options) {m : Nat} {c : Cmd} {r : c.Resp}
    (hc : Permitted p m s c) (happly : apply w m c r s = some s')
    (hbefore : (s.progress n).committed = false) (hafter : (s'.progress n).committed = true) :
    m = n ∧ ∃ ino, s.tree.lookup source.value = some (.file ino) ∧
      s.tree.lookup destination.value = none ∧ ∀ name, s'.tree.lookup name =
        if name = destination.value then some (.file ino)
        else if name = source.value then none else s.tree.lookup name := by
  rw [progress_of_step happly, Function.update_apply] at hafter
  split at hafter
  · rename_i hmn
    subst hmn
    refine ⟨rfl, ?_⟩
    cases c with
    | link a b =>
        obtain ⟨-, ⟨path, hpath, -⟩, -⟩ := hc
        rw [hcall] at hpath
        exact nomatch hpath
    | rename a b => exact nomatch (h.overwrites n).symm.trans hc.1
    | renameNoReplace a b =>
        cases r with
        | some err => exact nomatch hbefore.symm.trans hafter
        | none =>
            obtain ⟨-, -, ctx', source', destination', options', hcall', rfl, rfl⟩ := hc
            cases hcall.symm.trans hcall'
            obtain ⟨s₁, heffect, rfl⟩ := effect happly
            cases heffect with
            | quiet hquiet => exact nomatch hquiet
            | renameNoReplace htree =>
                obtain ⟨-, ino, ha, hb, hlookup⟩ := Tree.lookup_renameNoReplace htree
                exact ⟨ino, ha, hb, hlookup⟩
    | _ => exact nomatch hbefore.symm.trans hafter
  · exact nomatch hbefore.symm.trans hafter

/-- Any other step of a `Move` leaves every file where it is. -/
theorem Conserving.unmoved_of_step (h : Conserving p)
    (hcall : p.calls n = .move ctx source destination options) {c : Cmd} {r : c.Resp}
    (hc : Permitted p n s c) (happly : apply w n c r s = some s')
    (hafter : (s'.progress n).committed = false) (name : Str) (ino : Nat) :
    s'.tree.lookup name = some (.file ino) ↔ s.tree.lookup name = some (.file ino) := by
  have htarget : (p.calls n).target = none := by rw [hcall]; rfl
  have htemp : temporary w p.calls n = none := by rw [temporary, htarget]; rfl
  have hstays : ∀ {name ino}, ¬Arrives p n s s' name ino := by
    rintro name ino (⟨hcreated⟩ | ⟨-, hpath⟩ | ⟨-, -, hcommitted⟩)
    · cases htemp.symm.trans hcreated
    · cases htarget.symm.trans hpath
    · cases hafter.symm.trans hcommitted
  refine ⟨fun hname ↦ (arrives hc happly hname).resolve_right hstays, fun hname ↦ ?_⟩
  refine (departs hc happly hname).resolve_right fun hgone ↦ ?_
  cases hgone with
  | temporary hown => cases htemp.symm.trans hown
  | deleted hdelete => exact h.delete n _ _ hdelete
  | replaced hoverwrites => cases (h.overwrites n).symm.trans hoverwrites
  | moved hmoves hb hb' =>
      cases hb.symm.trans ((arrives hc happly hb').resolve_right hstays)

/-! ## Runs -/

variable {a : Adapter} {ctxs : Ctx → Option CtxErr} {tree : Tree} {data : Nat → Str}
  {trace : List (Label sig Nat)} {c c' : Config sig State fun _ : Nat ↦ Outcome}

theorem Conserving.names_run (h : Conserving p)
    (hverified : Verified (protocol p s₀) (Returned p) c) (hrun : Run (machine w) c trace c')
    (hne : (namesOf p c.state ino).Nonempty) :
    (namesOf p c'.state ino).Nonempty ∧
      (namesOf p c'.state ino).ncard = (namesOf p c.state ino).ncard ∧
        c'.state.data ino = c.state.data ino := by
  refine hverified.induct (J := fun _ s ↦ (namesOf p s ino).Nonempty ∧
    (namesOf p s ino).ncard = (namesOf p c.state ino).ncard ∧ s.data ino = c.state.data ino) hrun
    ⟨hne, rfl, rfl⟩ ?_ fun _ _ _ hsame ↦ hsame
  rintro - m cmd r s s' hs ⟨hc, happly⟩ ⟨hne, hcard, hdata⟩
  obtain ⟨hne', hcard'⟩ := (h.names_step hs hc happly ino).ncard_eq hne
  obtain ⟨name, htemp, hname⟩ := hne
  have hpublished := hs.names name ino htemp hname
  exact ⟨hne', hcard'.trans hcard, ((later_of_step hs hc happly).data ino hpublished).trans hdata⟩

theorem Conserving.subsingleton_run (h : Conserving p)
    (hverified : Verified (protocol p s₀) (Returned p) c) (hrun : Run (machine w) c trace c')
    (hs : (namesOf p c.state ino).Subsingleton) : (namesOf p c'.state ino).Subsingleton := by
  refine hverified.induct (J := fun _ s ↦ (namesOf p s ino).Subsingleton) hrun hs ?_
    fun _ _ _ hsame ↦ hsame
  rintro - m cmd r s s' hinv ⟨hc, happly⟩ hsub
  exact (h.names_step hinv hc happly ino).subsingleton hsub

theorem committed_of_run (hverified : Verified (protocol p s₀) (Returned p) c)
    (hrun : Run (machine w) c trace c') (hn : (c.state.progress n).committed = true) :
    (c'.state.progress n).committed = true := by
  refine hverified.induct (J := fun _ s ↦ (s.progress n).committed = true) hrun hn ?_
    fun _ _ _ hsame ↦ hsame
  rintro - m cmd r s s' - ⟨-, happly⟩ hcommitted
  exact committed_of_step happly hcommitted

theorem moved_of_returned (hverified : Verified (protocol p s₀) (Returned p) c)
    (hcall : p.calls n = .move ctx source destination options) {r : Option Err}
    (hret : c.threads n = .ret (.err r)) : Moved n r c.state := by
  have hreturned := hverified.returned hret
  unfold Returned at hreturned
  rw [hcall] at hreturned
  obtain ⟨r', heq, hmoved⟩ := hreturned
  exact Outcome.err.inj heq ▸ hmoved

/-- In every run without overwriting calls and without `Delete`: a file that has a
name keeps its bytes and the number of its names from then on, which is one unless
it had more at first; no step of a `Move` that returns an error moves a file; and a
`Move` that returns nil has at one step taken the file at its source to its
destination, where there was nothing. -/
theorem conserving_run (h : Conserving p)
    (hrun : Run (machine w) (start a p.calls { ctx := ctxs, tree, data }) trace c) :
    (∀ ino, (namesOf p c.state ino).Nonempty → ∀ trace' c', Run (machine w) c trace' c' →
      (namesOf p c'.state ino).Nonempty ∧
        (namesOf p c'.state ino).ncard = (namesOf p c.state ino).ncard ∧
          c'.state.data ino = c.state.data ino) ∧
    (∀ ino, (namesOf p { ctx := ctxs, tree, data } ino).Subsingleton →
      (namesOf p c.state ino).Nonempty → ∃! name, name ∈ namesOf p c.state ino) ∧
    (∀ n ctx source destination options err, p.calls n = .move ctx source destination options →
      c.threads n = .ret (.err (some err)) → ∀ trace₁ c₁ cmd r c₂ trace₂,
        Run (machine w) (start a p.calls { ctx := ctxs, tree, data }) trace₁ c₁ →
        Step (machine w) c₁ (.call n cmd r) c₂ → Run (machine w) c₂ trace₂ c →
        ∀ name ino, c₂.state.tree.lookup name = some (.file ino) ↔
          c₁.state.tree.lookup name = some (.file ino)) ∧
    ∀ n ctx source destination options, p.calls n = .move ctx source destination options →
      c.threads n = .ret (.err none) → ∃ trace₁ c₁ cmd r c₂ trace₂ ino,
        trace = trace₁ ++ .call n cmd r :: trace₂ ∧
        Run (machine w) (start a p.calls { ctx := ctxs, tree, data }) trace₁ c₁ ∧
        Step (machine w) c₁ (.call n cmd r) c₂ ∧ Run (machine w) c₂ trace₂ c ∧
        c₁.state.tree.lookup source.value = some (.file ino) ∧
        c₁.state.tree.lookup destination.value = none ∧
        ∀ name, c₂.state.tree.lookup name =
          if name = destination.value then some (.file ino)
          else if name = source.value then none else c₁.state.tree.lookup name := by
  have hstart := verified (p := p) a ctxs tree data
  have hverified := hstart.run hrun
  refine ⟨?_, ?_, ?_, ?_⟩
  · intro ino hne trace' c' hrun'
    exact h.names_run hverified hrun' hne
  · intro ino hsub ⟨name, hname⟩
    exact ⟨name, hname, fun other hother ↦ h.subsingleton_run hstart hrun hsub hother hname⟩
  · intro n ctx source destination options err hcall hret trace₁ c₁ cmd r c₂ trace₂ hrun₁
      hstep hrun₂
    have hverified₁ := hstart.run hrun₁
    obtain ⟨hverified₂, hc, happly⟩ := hverified₁.step hstep
    refine h.unmoved_of_step hcall hc happly ?_
    rw [← Bool.not_eq_true]
    intro hcommitted
    exact nomatch (moved_of_returned hverified hcall hret).mp
      (committed_of_run hverified₂ hrun₂ hcommitted)
  · intro n ctx source destination options hcall hret
    have hcommitted := (moved_of_returned hverified hcall hret).mpr rfl
    obtain ⟨trace₁, c₁, l, c₂, trace₂, rfl, hrun₁, hstep, hrun₂, hbefore, hafter⟩ :=
      hrun.exists_step (J := fun s ↦ (s.progress n).committed = true) nofun hcommitted
    have hkeeps := ((hstart.run hrun₁).step hstep).2
    cases l with
    | silent t =>
        have heq : c₂.state = c₁.state := hkeeps
        exact absurd (heq ▸ hafter) hbefore
    | call m cmd r =>
        obtain ⟨hc, happly⟩ := hkeeps
        rw [Bool.not_eq_true] at hbefore
        obtain ⟨rfl, ino, ha, hb, hlookup⟩ := h.moved_of_step hcall hc happly hbefore hafter
        exact ⟨trace₁, c₁, cmd, r, c₂, trace₂, ino, rfl, hrun₁, hstep, hrun₂, ha, hb, hlookup⟩

end Conservation

/-- A file is written, and two calls move it to the same place. -/
def writeAndMove : Nat → Call
  | 0 => .write 0 .a { ifNoneMatch := true }
  | 1 | 2 => .move 0 .a .b {}
  | _ => .cancel 1 .canceled

theorem temporary_writeAndMove {n : Nat} {name : Str}
    (h : temporary zeros writeAndMove n = some name) :
    n = 0 ∧ name = temporaryName PathName.current (.replicate 16 0) := by
  match n with
  | 0 => exact ⟨rfl, (Option.some.inj h).symm⟩
  | 1 | 2 => exact nomatch h
  | _ + 3 => exact nomatch h

def writeAndMovePool : Pool zeros where
  calls := writeAndMove
  streams m k h := by
    match m with
    | 0 | 1 | 2 => exact nomatch h
    | _ + 3 => exact nomatch h
  distinct m n name hm hn :=
    (temporary_writeAndMove hm).1.trans (temporary_writeAndMove hn).1.symm
  apart m n path hpath h := by
    have hvalue := (temporary_writeAndMove h).2
    match m with
    | 0 =>
        obtain rfl := List.mem_singleton.mp hpath
        exact absurd hvalue (by decide)
    | 1 | 2 =>
        rcases List.mem_pair.mp hpath with rfl | rfl <;> exact absurd hvalue (by decide)
    | _ + 3 => exact nomatch hpath

theorem conserving_writeAndMove : Conserving writeAndMovePool where
  overwrites n := by
    rcases n with _ | _ | _ | n <;> rfl
  delete n ctx path h := by
    rcases n with _ | _ | _ | n <;> cases h

/-- Both find the destination free, and one of them moves the file. -/
theorem writeAndMove_conserving :
    ∃ trace c err, Run (machine zeros) (start ⟨.allowInternalSymlinks⟩ writeAndMovePool.calls
        { tree := .empty, data := fun _ ↦ [] }) trace c ∧
      c.threads 1 = .ret (.err none) ∧ c.threads 2 = .ret (.err (some err)) ∧
      c.state.tree.lookup (.lit "b") = some (.file 0) ∧
      ∃! name, name ∈ namesOf writeAndMovePool c.state 0 := by
  obtain ⟨trace, c, err, hexec, hret, hret', hname⟩ : ∃ trace c err,
      (machine zeros).exec (fun _ _ ↦ True) (answer zeros oneByte)
        (.replicate 19 0 ++ .replicate 2 2 ++ .replicate 3 1 ++ [2])
        (start ⟨.allowInternalSymlinks⟩ writeAndMovePool.calls
          { tree := .empty, data := fun _ ↦ [] }) = some (trace, c) ∧
      c.threads 1 = .ret (.err none) ∧ c.threads 2 = .ret (.err (some err)) ∧
      c.state.tree.lookup (.lit "b") = some (.file 0) := ⟨_, _, _, rfl, rfl, rfl, rfl⟩
  have hrun := (Machine.run_of_exec hexec).run
  refine ⟨trace, c, err, hrun, hret, hret', hname, ?_⟩
  refine (conserving_run conserving_writeAndMove hrun).2.1 0 ?_ ⟨.lit "b", fun n ↦ ?_, hname⟩
  · rintro name ⟨-, hnone⟩
    exact nomatch hnone
  · exact writeAndMovePool.apart 1 n .b (List.mem_pair.mpr (.inr rfl))

end GoFilesystem.Local
