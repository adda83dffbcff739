import GoFilesystem.Ftp.Machine
import GoFilesystem.Remote.Bounds
import GoFilesystem.Remote.Calls
import GoFilesystem.Sftp.Machine

/-!
# Listing a hostile server

`list` of the two adapters for servers, when the server answers whatever it likes and
contexts may be done at any time.  The world of a call is the state of the adapter and
the number of directories that it has asked for.
-/

namespace GoFilesystem

open Go Conc Remote

section

variable {S : Sig} {Tid St : Type} {C : Remote.Client S} {M : Machine S Tid St}

/-- Every response that a command may have is an answer. -/
def Remote.Client.Runs.anything (x : C.Runs M) (reads : S.Cmd → Nat) (t : Tid) :
    Answers S (St × Nat) :=
  x.alone true (fun _ n c _ n' ↦ n' = n + reads c) t

theorem Remote.Client.Runs.ensures_anything (x : C.Runs M) {reads : S.Cmd → Nat} {t : Tid}
    {w : St × Nat} (c : S.Cmd) (h : ∀ s, ∃ r s', M.apply t c r s = some s') :
    Ensures (x.anything reads t) True (Prog.perform c) w fun _ w' ↦ w'.2 = w.2 + reads c := by
  refine Ensures.command (fun _ ↦ ?_) fun _ _ ⟨_, _, _, hw'⟩ ↦ hw'
  obtain ⟨r, s', happly⟩ := h (x.put w.1 { x.base w.1 with ctx := (x.base w.1).ctx })
  exact ⟨r, (s', _), _, fun _ ↦ .inl rfl, happly, rfl⟩

end

namespace Ftp

def Cmd.reads : Cmd → Nat
  | .list _ _ => 1
  | _ => 0

def anything (t : Tid) : Answers sig (State × Nat) := runs.anything Cmd.reads t

theorem ensures_anything_listTree {t : Tid} {w : State × Nat} (a : Adapter) (ctx : Ctx)
    (directory : Path) (recursive : Bool) {limit : Int} (hlimit : 0 < limit) (session : Session) :
    Ensures (anything t) True (listTree a ctx directory recursive limit session) w
      fun r w' ↦ w'.2 ≤ w.2 + limit ∧ Bounded directory limit r := by
  refine ensures_bounded (fun w name ↦ ?_) (fun w name ↦ ?_) a.root recursive hlimit directory w
  · exact runs.ensures_anything (Cmd.stat session name) fun s ↦ ⟨Except.ok {}, s, rfl⟩
  · have hctx : Ensures (anything t) True (perform (.ctxErr ctx)) w fun _ w' ↦ w'.2 = w.2 :=
      runs.ensures_anything (Cmd.ctxErr ctx) fun s ↦ ⟨s.ctx ctx, s, if_pos rfl⟩
    refine hctx.check (fun _ _ h ↦ h.le.trans (Nat.le_succ _)) fun w₁ h₁ ↦ ?_
    exact (runs.ensures_anything (Cmd.list session name) fun s ↦ ⟨Except.ok [], s, rfl⟩).mono
      fun _ _ h ↦ (h.trans (congrArg (· + 1) h₁)).le

end Ftp

namespace Sftp

def Cmd.reads : Cmd → Nat
  | .readDir _ _ _ => 1
  | _ => 0

def anything (t : Tid) : Answers sig (State × Nat) := runs.anything Cmd.reads t

theorem ensures_anything_listTree {t : Tid} {w : State × Nat} (a : Adapter) (ctx : Ctx)
    (directory : Path) (recursive : Bool) {limit : Int} (hlimit : 0 < limit) (session : Session) :
    Ensures (anything t) True (listTree a ctx directory recursive limit session) w
      fun r w' ↦ w'.2 ≤ w.2 + limit ∧ Bounded directory limit r := by
  refine ensures_bounded (fun w name ↦ ?_) (fun w name ↦ ?_) a.root recursive hlimit directory w
  · exact runs.ensures_anything (Cmd.lstat session name) fun s ↦ ⟨Except.ok {}, s, rfl⟩
  · exact (runs.ensures_anything (Cmd.readDir session ctx name) fun s ↦ ⟨Except.ok [], s, rfl⟩).mono
      fun _ _ h ↦ h.le

end Sftp

/-- **A hostile server cannot keep `list` busy.**  Whatever it answers, `list` with a
positive limit ends after at most as many requests for directories, returns at most as
many entries, and all of them are beneath the directory. -/
theorem listing_bounded (directory : Path) (recursive : Bool) (limit : Int) (hlimit : 0 < limit) :
    (∀ (a : Ftp.Adapter) (ctx : Ftp.Ctx) (session : Ftp.Session) (t : Ftp.Tid) (s : Ftp.State),
      Halts (Ftp.anything t) (Ftp.listTree a ctx directory recursive limit session) (s, 0) ∧
      ∀ r w, Eval (Ftp.anything t) (Ftp.listTree a ctx directory recursive limit session)
        (s, 0) r w → w.2 ≤ limit ∧ Bounded directory limit r) ∧
    ∀ (a : Sftp.Adapter) (ctx : Sftp.Ctx) (session : Sftp.Session) (t : Sftp.Tid)
      (s : Sftp.State),
      Halts (Sftp.anything t) (Sftp.listTree a ctx directory recursive limit session) (s, 0) ∧
      ∀ r w, Eval (Sftp.anything t) (Sftp.listTree a ctx directory recursive limit session)
        (s, 0) r w → w.2 ≤ limit ∧ Bounded directory limit r := by
  constructor
  · intro a ctx session t s
    have hlist := Ftp.ensures_anything_listTree (t := t) (w := (s, 0)) a ctx directory recursive
      hlimit session
    refine ⟨hlist.halts, fun r w heval ↦ ?_⟩
    obtain ⟨hreads, hbounded⟩ := heval.ensures hlist
    exact ⟨by simpa using hreads, hbounded⟩
  · intro a ctx session t s
    have hlist := Sftp.ensures_anything_listTree (t := t) (w := (s, 0)) a ctx directory recursive
      hlimit session
    refine ⟨hlist.halts, fun r w heval ↦ ?_⟩
    obtain ⟨hreads, hbounded⟩ := heval.ensures hlist
    exact ⟨by simpa using hreads, hbounded⟩

theorem listing_bounded_two :
    (Halts (Ftp.anything (.call 0)) (Ftp.listTree ⟨[slash], 10⟩ 0 .root true 2 0) ({}, 0) ∧
      ∀ r w, Eval (Ftp.anything (.call 0)) (Ftp.listTree ⟨[slash], 10⟩ 0 .root true 2 0)
        ({}, 0) r w → w.2 ≤ (2 : Int) ∧ Bounded .root 2 r) ∧
    Halts (Sftp.anything (.call 0)) (Sftp.listTree ⟨[slash], 10, true⟩ 0 .root true 2 0) ({}, 0) ∧
      ∀ r w, Eval (Sftp.anything (.call 0)) (Sftp.listTree ⟨[slash], 10, true⟩ 0 .root true 2 0)
        ({}, 0) r w → w.2 ≤ (2 : Int) ∧ Bounded .root 2 r :=
  ⟨(listing_bounded .root true 2 (by decide)).1 ⟨[slash], 10⟩ 0 0 (.call 0) {},
    (listing_bounded .root true 2 (by decide)).2 ⟨[slash], 10, true⟩ 0 0 (.call 0) {}⟩

end GoFilesystem
