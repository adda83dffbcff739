import GoFilesystem.Ftp.Recovery
import GoFilesystem.Sftp.Recovery

/-!
# Lost connections of the remote adapters

The current session of an adapter has died, and calls are made one after another.
`Stat`, `List`, `Open` and the calls that begin with one of them replace the session.
`Write`, `Delete` and `Move`, which must not be repeated, return the error and leave
the dead session to the next call: a `Delete` after a `Delete` fails as well, and so
on until a call comes that replaces it.
-/

namespace GoFilesystem

open Go Conc

/-- **Recovery.**  Let operations be called one after another on an adapter whose
session has died.  Only the first of them can return having used the dead session
last, if and only if every `Write`, `Delete` and `Move` that works on a session, but for
the first call, comes after a call that replaces a dead session. -/
theorem sessions_recovered (a : Ftp.Adapter) (calls : Nat → Ftp.Call)
    (hcalls : ∀ n, (calls n).operates = true) (b : Sftp.Adapter) (calls' : Nat → Sftp.Call)
    (hcalls' : ∀ n, (calls' n).operates = true) :
    (Ftp.Recovers a calls ↔
      ∀ n ≥ 1, (calls n).mutates = true → ∃ m < n, (calls m).recovers = true) ∧
    (Sftp.Recovers b calls' ↔
      ∀ n ≥ 1, (calls' n).mutates b = true → ∃ m < n, (calls' m).recovers = true) :=
  ⟨Ftp.recovers_iff hcalls, Sftp.recovers_iff hcalls'⟩

/-- `Stat`, and then `Delete` again and again. -/
def statThenDelete : Nat → Ftp.Call
  | 0 => .stat 0 .a
  | _ => .delete 0 .a

/-- `Stat` replaces the dead session, and the `Delete` after it uses the new one. -/
theorem sessions_recovered_stat :
    ∃ trace c,
      RunIf Ftp.machine (Ftp.LosesSession 0) (Ftp.resume ⟨.lit "/", 10⟩ statThenDelete {}) trace c ∧
      c.threads (.call 1) = .ret (.err none) ∧
      Ftp.resources.lastUsed trace (.call 1) ≠ some 0 := by
  obtain ⟨first, c₁, second, c₂, hfirst, hsecond, hstat, hdelete⟩ : ∃ first c₁ second c₂,
      Ftp.machine.exec (fun _ l ↦ Ftp.resources.Supposed 0 l ∧ l.thread = .call 0) Ftp.dropped
        (.replicate 22 (.call 0)) (Ftp.resume ⟨.lit "/", 10⟩ statThenDelete {}) =
          some (first, c₁) ∧
      Ftp.machine.exec (fun _ l ↦ Ftp.resources.Supposed 0 l ∧ l.thread = .call 1) Ftp.dropped
        (.replicate 9 (.call 1)) c₁ = some (second, c₂) ∧
      (∃ r, c₁.threads (.call 0) = .ret r) ∧ c₂.threads (.call 1) = .ret (.err none) :=
    ⟨_, _, _, _, rfl, rfl, ⟨_, rfl⟩, rfl⟩
  have hrun := ((Machine.run_of_exec hfirst).inTurn Ftp.Tid.call_injective).inTurn
    Ftp.Tid.call_injective (fun m hm ↦ Nat.lt_one_iff.mp hm ▸ hstat) (Machine.run_of_exec hsecond)
  have hoperates : ∀ n, (statThenDelete n).operates = true := fun n ↦ by cases n <;> rfl
  have hrecovers := (sessions_recovered ⟨.lit "/", 10⟩ statThenDelete hoperates
    ⟨.lit "/", 10, true⟩ (fun _ ↦ .stat 0 .a) fun _ ↦ rfl).1.mpr fun n hn _ ↦ ⟨0, hn, rfl⟩
  refine ⟨_, c₂, hrun, hdelete, ?_⟩
  exact hrecovers {} 0 _ c₂ rfl Nat.one_pos (fun _ ↦ rfl) hrun 1 (Nat.le_refl 1) _ hdelete

/-- **A lost session stays.**  Two calls of `Delete` on a session that has died: both
fail on it, in both adapters. -/
theorem sessions_not_recovered :
    (∃ trace c,
      RunIf Ftp.machine (Ftp.LosesSession 0)
        (Ftp.resume ⟨.lit "/", 10⟩ (fun _ ↦ .delete 0 .a) {}) trace c ∧
      c.threads (.call 1) = .ret (.err (some (.sentinel .eof))) ∧
      Ftp.resources.lastUsed trace (.call 1) = some 0) ∧
    ∃ trace c,
      RunIf Sftp.machine (Sftp.LosesSession 0)
        (Sftp.resume ⟨.lit "/", 10, true⟩ (fun _ ↦ .delete 0 .a) {}) trace c ∧
      c.threads (.call 1) = .ret (.err (some (.sentinel .eof))) ∧
      Sftp.resources.lastUsed trace (.call 1) = some 0 := by
  refine ⟨?_, ?_⟩
  · obtain ⟨first, c₁, second, c₂, hfirst, hsecond, hret, hdelete, hused⟩ : ∃ first c₁ second c₂,
        Ftp.machine.exec (fun _ l ↦ Ftp.resources.Supposed 0 l ∧ l.thread = .call 0) Ftp.dropped
          (.replicate 8 (.call 0)) (Ftp.resume ⟨.lit "/", 10⟩ (fun _ ↦ .delete 0 .a) {}) =
            some (first, c₁) ∧
        Ftp.machine.exec (fun _ l ↦ Ftp.resources.Supposed 0 l ∧ l.thread = .call 1) Ftp.dropped
          (.replicate 8 (.call 1)) c₁ = some (second, c₂) ∧
        (∃ r, c₁.threads (.call 0) = .ret r) ∧
        c₂.threads (.call 1) = .ret (.err (some (.sentinel .eof))) ∧
        Ftp.resources.lastUsed (first ++ second) (.call 1) = some 0 :=
      ⟨_, _, _, _, rfl, rfl, ⟨_, rfl⟩, rfl, rfl⟩
    have hrun := (Machine.run_of_exec hfirst).inTurn Ftp.Tid.call_injective
    exact ⟨_, c₂, hrun.inTurn Ftp.Tid.call_injective (fun m hm ↦ Nat.lt_one_iff.mp hm ▸ hret)
      (Machine.run_of_exec hsecond), hdelete, hused⟩
  · obtain ⟨first, c₁, second, c₂, hfirst, hsecond, hret, hdelete, hused⟩ : ∃ first c₁ second c₂,
        Sftp.machine.exec (fun _ l ↦ Sftp.resources.Supposed 0 l ∧ l.thread = .call 0) Sftp.dropped
          (.replicate 6 (.call 0))
          (Sftp.resume ⟨.lit "/", 10, true⟩ (fun _ ↦ .delete 0 .a) {}) =
            some (first, c₁) ∧
        Sftp.machine.exec (fun _ l ↦ Sftp.resources.Supposed 0 l ∧ l.thread = .call 1) Sftp.dropped
          (.replicate 6 (.call 1)) c₁ = some (second, c₂) ∧
        (∃ r, c₁.threads (.call 0) = .ret r) ∧
        c₂.threads (.call 1) = .ret (.err (some (.sentinel .eof))) ∧
        Sftp.resources.lastUsed (first ++ second) (.call 1) = some 0 :=
      ⟨_, _, _, _, rfl, rfl, ⟨_, rfl⟩, rfl, rfl⟩
    have hrun := (Machine.run_of_exec hfirst).inTurn Sftp.Tid.call_injective
    exact ⟨_, c₂, hrun.inTurn Sftp.Tid.call_injective (fun m hm ↦ Nat.lt_one_iff.mp hm ▸ hret)
      (Machine.run_of_exec hsecond), hdelete, hused⟩

end GoFilesystem
