import GoFilesystem.Ftp.Protocol

/-!
# The calls keep to the protocol

The programs of the adapter's methods, one after another, from the handling of
the session up to `Open`.  A call that has not started a transfer holds `opMu`
between its own lock and unlock, and whatever it does with the server in between
is permitted.
-/

namespace GoFilesystem.Ftp

open Go Conc

variable {calls : Nat → Call} {t : Tid} {L : State → Prop} {a : Adapter}

/-! ## The session -/

section Session

variable (h : Local calls t L)

include h

theorem Local.ctxErr (ctx : Ctx) :
    (protocol calls).Triple t (perform (.ctxErr ctx)) L fun _ ↦ L :=
  h.quiet (.ctxErr ctx) trivial fun _ _ _ ↦ trivial

theorem Local.currentSession (ctx : Ctx) :
    (protocol calls).Triple t (currentSession ctx) L fun _ ↦ L := by
  refine (h.ctxErr ctx).bind ?_
  rintro (_ | err)
  · refine h.lock.bind fun _ ↦ ?_
    refine (h.quietLocked .loadClosed trivial fun _ _ hl ↦ hl.1).bind ?_
    rintro (_ | _)
    · refine (h.quietLocked .loadSession trivial fun _ _ hl ↦ hl.1).bind ?_
      rintro (_ | session)
      · refine (h.quietLocked (.connect ctx) trivial fun _ _ hl ↦ hl.1).bind ?_
        rintro (err | session)
        · exact h.unlock.bind fun _ ↦ .keep rfl
        · refine (h.quietLocked (.storeSession _) trivial fun _ _ hl ↦ hl.1).bind fun _ ↦ ?_
          exact h.unlock.bind fun _ ↦ .keep rfl
      · exact h.unlock.bind fun _ ↦ .keep rfl
    · exact h.unlock.bind fun _ ↦ .keep rfl
  · exact .keep rfl

theorem Local.abortTransfer (habort : ∀ s, Inv s → L s → PermittedAbort calls t s) :
    (protocol calls).Triple t abortTransfer L fun _ ↦ L := by
  refine h.lock.bind fun _ ↦ ?_
  refine (h.quietLocked .loadSession trivial fun _ _ hl ↦ hl.1).bind fun session ↦ ?_
  refine h.unlock.bind fun _ ↦ ?_
  cases session with
  | none => exact .keep rfl
  | some session =>
      refine (h.quiet (.abort session) trivial habort).bind fun _ ↦ ?_
      exact .keep rfl

variable (hop : ∀ s, Inv s → L s → s.opMu = some t.owner)

include hop

theorem Local.invalidate (failed : Session) :
    (protocol calls).Triple t (invalidate failed) L fun _ ↦ L := by
  refine h.lock.bind fun _ ↦ ?_
  refine (h.quietLocked .loadSession trivial fun _ _ hl ↦ hl.1).bind fun session ↦ ?_
  split
  · refine (h.quietLocked (.quit failed) trivial fun s hs hl ↦ ⟨hl.1, hop s hs hl.2⟩).bind
      fun _ ↦ ?_
    refine (h.quietLocked (.storeSession none) trivial fun _ _ hl ↦ hl.1).bind fun _ ↦ ?_
    exact h.unlock
  · exact h.unlock

theorem Local.rejectLinks (session : Session) (candidates : List Str) :
    (protocol calls).Triple t (client.rejectLinks session candidates) L fun _ ↦ L := by
  induction candidates with
  | nil => exact .keep rfl
  | cons candidate candidates ih =>
      refine (h.quiet (.stat session candidate) trivial hop).bind ?_
      rintro (err | entry)
      · exact .keep rfl
      · dsimp only
        split
        · exact .keep rfl
        · exact ih

theorem Local.rejectLink (session : Session) (path : Path) (includeFinal : Bool) :
    (protocol calls).Triple t (rejectLink a session path includeFinal) L fun _ ↦ L :=
  h.rejectLinks hop session _

theorem Local.checkedStat (path : Path) (session : Session) :
    (protocol calls).Triple t (checkedStat a path session) L fun _ ↦ L := by
  refine (h.rejectLink hop session path true).bind ?_
  rintro (_ | err)
  · exact h.quiet (.stat session _) trivial hop
  · exact .keep rfl

theorem Local.readDir (ctx : Ctx) (session : Session) (name : Str) :
    (protocol calls).Triple t (client.readDir ctx session name) L fun _ ↦ L := by
  refine (h.ctxErr ctx).bind ?_
  rintro (_ | err)
  · exact h.quiet (.list session name) trivial hop
  · exact .keep rfl

theorem Local.listTree (ctx : Ctx) (directory : Path) (recursive : Bool) (limit : Int)
    (session : Session) :
    (protocol calls).Triple t (listTree a ctx directory recursive limit session) L fun _ ↦ L := by
  have hround : ∀ i,
      (protocol calls).Triple t (client.listNext a.root ctx session recursive limit i) L
        (Sum.elim (fun _ ↦ L) fun _ ↦ L) := by
    rintro ⟨_ | ⟨current, queue⟩, entries⟩
    · exact .keep rfl
    · refine Protocol.Triple.bind (h.readDir hop ctx session _) ?_
      rintro (err | children)
      · exact .keep rfl
      · refine .ret fun _ _ hl ↦ ?_
        rcases Remote.visitDirectory .. with next | result <;> exact hl
  have hdenied : (protocol calls).Triple t (if directory.isRoot then pure none
      else client.rejectLinks session (a.linkCandidates directory true)) L fun _ ↦ L := by
    split
    · exact .keep rfl
    · exact h.rejectLinks hop session _
  refine hdenied.bind ?_
  rintro (_ | err)
  · exact Protocol.Triple.loop (fun _ ↦ L) (fun _ ↦ h.stable) (fun _ ↦ h.stable) hround _
  · exact .keep rfl

theorem Local.makeDirectoriesFrom (session : Session) (current : Str) (segments : List Str) :
    (protocol calls).Triple t (makeDirectoriesFrom session current segments) L fun _ ↦ L := by
  induction segments generalizing current with
  | nil => exact .keep rfl
  | cons segment segments ih =>
      refine (h.quiet (.makeDir session _) trivial hop).bind ?_
      rintro (_ | err)
      · exact ih _
      · refine (h.quiet (.stat session _) trivial hop).bind ?_
        rintro (_ | entry)
        · exact .keep rfl
        · dsimp only
          split
          · exact ih _
          · exact .keep rfl

theorem Local.upload (ctx : Ctx) (session : Session) (temporary destination : Str)
    (source : Source) :
    (protocol calls).Triple t (upload ctx session temporary destination source) L
      fun _ ↦ L := by
  have hcleanup : ∀ err : Err, (protocol calls).Triple t (do
      let _ ← perform (.delete session temporary)
      return some err) L fun _ ↦ L := by
    intro err
    refine (h.quiet (.delete session temporary) trivial hop).bind fun _ ↦ ?_
    exact .keep rfl
  refine (h.quiet (.store session temporary ctx source) trivial hop).bind ?_
  rintro (_ | err)
  · refine (h.ctxErr ctx).bind ?_
    rintro (_ | err)
    · refine (h.quiet (.rename session temporary destination) trivial hop).bind ?_
      rintro (_ | err)
      · exact .keep rfl
      · exact hcleanup err
    · exact hcleanup err.err
  · exact hcleanup err

theorem Local.writeLocked (ctx : Ctx) (session : Session) (path : Path) (source : Source) :
    (protocol calls).Triple t (writeLocked a ctx session path source) L fun _ ↦ L := by
  refine (h.rejectLink hop session path false).bind ?_
  rintro (_ | err)
  · refine (h.quiet (.stat session _) trivial hop).bind ?_
    rintro (err | entry)
    · dsimp only
      split
      · exact .keep rfl
      · refine Protocol.Triple.bind (K := fun _ ↦ L) ?_ ?_
        · unfold makeDirectories
          split
          · exact .keep rfl
          · exact h.makeDirectoriesFrom hop session _ _
        · rintro (_ | err)
          · refine (h.quiet .random trivial fun _ _ _ ↦ trivial).bind ?_
            rintro (err | random)
            · exact .keep rfl
            · exact h.upload hop ctx session _ _ source
          · exact .keep rfl
    · exact .keep rfl
  · exact .keep rfl

end Session

/-! ## Operations -/

def Fresh (n : Nat) (s : State) : Prop := (s.streams n).started = false

/-- The call holds `opMu` and has not started a transfer. -/
def Holds (n : Nat) (s : State) : Prop := s.opMu = some n ∧ Fresh n s

theorem StreamMove.fresh {n : StreamId} {x y : Stream} (hmove : StreamMove t n x y)
    (ht : t ≠ .call n) (hx : x.started = false) : y.started = false := by
  cases hmove with
  | start ht' => exact absurd ht' ht
  | _ => exact hx

variable (n : Nat)

theorem local_fresh : Local calls (.call n) (Fresh n) where
  stable := stable_of_move fun _ ht _ _ _ hmove hl ↦ (hmove.streams n).fresh ht hl
  congr s s' _ hstreams hl := by
    unfold Fresh
    rwa [hstreams]

/-- `opMu` stays with a call while nobody may release it on its behalf. -/
theorem Move.opMu_of_owner {s s' : State} {n : Nat} (hmove : Move t s s')
    (hs : s.opMu = some n) (h : t.owner = n → ¬Releases t s) : s'.opMu = some n := by
  rcases hmove.opMu with heq | ⟨hfree, -⟩ | ⟨howner, hreleases, -⟩
  · exact heq.trans hs
  · exact nomatch hfree.symm.trans hs
  · exact absurd hreleases (h (Option.some.inj (howner.symm.trans hs)))

theorem local_holds : Local calls (.call n) (Holds n) where
  stable := by
    refine stable_of_move fun t' ht s s' hs hmove hl ↦ ⟨hmove.opMu_of_owner hl.1 ?_, ?_⟩
    · rintro rfl hreleases
      cases t' with
      | call n => exact ht rfl
      | transfer n => exact nomatch hreleases.1.symm.trans hl.2
      | watch n => exact hreleases
    · exact (hmove.streams n).fresh ht hl.2
  congr s s' hop hstreams hl := by
    unfold Holds Fresh
    rwa [hop, hstreams]

theorem opMu_of_holds (s : State) (_ : Inv s) (h : Holds n s) :
    s.opMu = some (Tid.call n).owner := h.1

theorem opLock_triple :
    (protocol calls).Triple (.call n) (perform .opLock) (Fresh n) fun _ ↦ Holds n := by
  refine command (.call n) .opLock (fun _ _ _ ↦ trivial) (fun _ ↦ (local_holds n).stable) ?_
  intro s r s' _ hl happly
  obtain ⟨-, rfl⟩ := of_ite_some happly
  exact ⟨rfl, hl⟩

theorem opUnlock_triple :
    (protocol calls).Triple (.call n) (perform .opUnlock) (Holds n) fun _ ↦ Fresh n := by
  refine command (.call n) .opUnlock (fun _ _ hl ↦ hl) (fun _ ↦ (local_fresh n).stable) ?_
  intro s r s' _ hl happly
  obtain ⟨-, rfl⟩ := of_ite_some happly
  exact hl.2

/-- The end of an operation: `opMu` is released and a result returned. -/
theorem opUnlock_return {α : Type} (result : α) :
    (protocol calls).Triple (.call n) (do
      perform .opUnlock
      return result) (Holds n) fun _ ↦ Fresh n :=
  (opUnlock_triple n).bind fun _ ↦ .keep rfl

theorem withLockedResult_triple {α : Type} (ctx : Ctx) (retry : Bool)
    {operation : Session → Prog sig (Except Err α)}
    (h : ∀ session, (protocol calls).Triple (.call n) (operation session) (Holds n)
      fun _ ↦ Holds n) :
    (protocol calls).Triple (.call n) (withLockedResult ctx retry operation) (Fresh n)
      fun _ ↦ Fresh n := by
  have hholds : Local calls (.call n) (Holds n) := local_holds n
  have hsession := hholds.currentSession ctx
  refine (opLock_triple n).bind fun _ ↦ Protocol.Triple.bind (K := fun _ ↦ Holds n) ?_
    (opUnlock_return n)
  refine hsession.bind ?_
  rintro (err | session)
  · exact .keep rfl
  · refine (h session).bind ?_
    rintro (err | result)
    · dsimp only
      split
      · refine (hholds.invalidate (opMu_of_holds n) session).bind fun _ ↦ hsession.bind ?_
        rintro (reconnectErr | session)
        · exact .keep rfl
        · exact h session
      · exact .keep rfl
    · exact .keep rfl

theorem stat_triple (n : Nat) (ctx : Ctx) (path : Path) :
    (protocol calls).Triple (.call n) (stat a ctx path) (Fresh n) fun _ ↦ Fresh n := by
  refine (withLockedResult_triple n ctx true
    ((local_holds n).checkedStat (opMu_of_holds n) path)).bind ?_
  rintro (err | entry)
  · exact .keep rfl
  · exact .keep rfl

theorem delete_triple (n : Nat) (ctx : Ctx) (path : Path) :
    (protocol calls).Triple (.call n) (delete a ctx path) (Fresh n) fun _ ↦ Fresh n := by
  refine (withLockedResult_triple n ctx false ?_).bind ?_
  · intro session
    refine ((local_holds n).rejectLink (opMu_of_holds n) session path true).bind ?_
    rintro (_ | err)
    · refine ((local_holds n).quiet (.delete session _) trivial (opMu_of_holds n)).bind ?_
      rintro (_ | err)
      · exact .keep rfl
      · exact .keep rfl
    · exact .keep rfl
  · rintro (err | _)
    · exact .keep rfl
    · exact .keep rfl

theorem list_triple (n : Nat) (ctx : Ctx) (directory : Path) (options : ListOptions) :
    (protocol calls).Triple (.call n) (list a ctx directory options) (Fresh n)
      fun _ ↦ Fresh n := by
  unfold list
  split
  · exact .keep rfl
  · refine (withLockedResult_triple n ctx true
      ((local_holds n).listTree (opMu_of_holds n) ctx directory options.recursive _)).bind ?_
    rintro (err | entries)
    · exact .keep rfl
    · exact .keep rfl

theorem write_triple (n : Nat) (ctx : Ctx) (path : Path) (source : Source)
    (options : WriteOptions) :
    (protocol calls).Triple (.call n) (write a ctx path source options) (Fresh n)
      fun _ ↦ Fresh n := by
  unfold write
  split
  · exact .keep rfl
  split
  · exact .keep rfl
  refine (opLock_triple n).bind fun _ ↦ ((local_holds n).currentSession ctx).bind ?_
  rintro (err | session)
  · exact opUnlock_return n _
  · refine ((local_holds n).writeLocked (opMu_of_holds n) ctx session path source).bind
      fun err ↦ ?_
    refine (opUnlock_triple n).bind fun _ ↦ ?_
    cases err with
    | none => exact stat_triple n ctx path
    | some err => exact .keep rfl

theorem close_triple (hn : calls n = .close) :
    (protocol calls).Triple (.call n) close (Fresh n) fun _ ↦ Fresh n := by
  have hfresh : Local calls (.call n) (Fresh n) := local_fresh n
  have hholds : Local calls (.call n) (Holds n) := local_holds n
  refine (hfresh.abortTransfer ?_).bind fun _ ↦ ?_
  · intro s _ _ m hm
    exact nomatch hn.symm.trans hm
  refine (opLock_triple n).bind fun _ ↦ hholds.lock.bind fun _ ↦ ?_
  refine (hholds.quietLocked .loadClosed trivial fun _ _ hl ↦ hl.1).bind ?_
  rintro (_ | _)
  · refine (hholds.quietLocked .storeClosed trivial fun _ _ hl ↦ hl.1).bind fun _ ↦ ?_
    refine (hholds.quietLocked .loadSession trivial fun _ _ hl ↦ hl.1).bind ?_
    rintro (_ | session)
    · exact hholds.unlock.bind fun _ ↦ opUnlock_return n none
    · refine (hholds.quietLocked (.quit session) trivial fun _ _ hl ↦ ⟨hl.1, hl.2.1⟩).bind
        fun err ↦ ?_
      refine (hholds.quietLocked (.storeSession none) trivial fun _ _ hl ↦ hl.1).bind fun _ ↦ ?_
      exact hholds.unlock.bind fun _ ↦ opUnlock_return n err
  · exact hholds.unlock.bind fun _ ↦ opUnlock_return n none

/-! ## Opening a stream -/

theorem prepareOpen_triple (n : Nat) (ctx : Ctx) (session : Session) (path : Path) :
    (protocol calls).Triple (.call n) (prepareOpen a ctx session path) (Holds n)
      fun _ ↦ Holds n := by
  have hholds : Local calls (.call n) (Holds n) := local_holds n
  refine (hholds.checkedStat (opMu_of_holds n) path session).bind ?_
  rintro (err | entry)
  · dsimp only
    split
    · refine (hholds.invalidate (opMu_of_holds n) session).bind fun _ ↦ ?_
      refine (hholds.currentSession ctx).bind ?_
      rintro (reconnectErr | reconnected)
      · exact .keep rfl
      · refine (hholds.checkedStat (opMu_of_holds n) path reconnected).bind ?_
        rintro (err | entry)
        · exact .keep rfl
        · exact .keep rfl
    · exact .keep rfl
  · exact .keep rfl

theorem start_triple (session : Session) (ctx : Ctx) (path : Path) :
    (protocol calls).Triple (.call n) (perform (.start n session ctx path)) (Holds n)
      fun _ _ ↦ True := by
  refine command (.call n) (.start n session ctx path) ?_ (fun _ ↦ Protocol.stable_fact _) ?_
  · exact fun _ _ hl ↦ ⟨rfl, hl.1⟩
  · exact fun _ _ _ _ _ _ ↦ trivial

theorem openStream_triple (ctx : Ctx) (path : Path) :
    (protocol calls).Triple (.call n) (openStream a n ctx path) (Fresh n) fun _ _ ↦ True := by
  have hunlock : ∀ err : Option Err, (protocol calls).Triple (.call n) (do
      perform .opUnlock
      return err) (Holds n) fun _ _ ↦ True :=
    fun err ↦ (opUnlock_return n err).conseq (fun _ _ hl ↦ hl) fun _ _ _ _ ↦ trivial
  have hholds : Local calls (.call n) (Holds n) := local_holds n
  refine ((local_fresh n).ctxErr ctx).bind ?_
  rintro (_ | err)
  · refine (opLock_triple n).bind fun _ ↦ (hholds.currentSession ctx).bind ?_
    rintro (err | session)
    · exact hunlock _
    · refine (prepareOpen_triple n ctx session path).bind ?_
      rintro (err | ⟨session, entry⟩)
      · exact hunlock _
      · dsimp only
        split
        · exact hunlock _
        · exact (start_triple n session ctx path).bind fun _ ↦ .ret fun _ _ _ ↦ trivial
  · exact .ret fun _ _ _ ↦ trivial

end GoFilesystem.Ftp
