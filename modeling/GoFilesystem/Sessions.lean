import GoFilesystem.Ftp.Sessions
import GoFilesystem.Sftp.Sessions

/-!
# Sessions of the remote adapters

Both adapters own their session exclusively, in every interleaving of any number
of calls: this is `Slot.Owned` of the two machines, which are two uses of one
library of slots.
-/

namespace GoFilesystem

open Go Conc Slot

/-- **Session ownership.**  In every run of an adapter at most one session is not
closed, and it is the current one or about to become it; what has left the adapter
has been closed once; whoever closes a session is `Close` or has just seen that
session fail; and after `Close` there is no session and no connect. -/
theorem remote_sessions_owned :
    (∀ a calls trace (c : Config Ftp.sig Ftp.State Ftp.Returns),
      Run Ftp.machine (Ftp.start a calls) trace c →
        Owned Ftp.sessions (Ftp.closes calls) trace c) ∧
    ∀ a calls trace (c : Config Sftp.sig Sftp.State Sftp.Returns),
      Run Sftp.machine (Sftp.start a calls) trace c →
        Owned Sftp.sessions (Sftp.closes calls) trace c :=
  ⟨fun _ _ _ _ h ↦ Ftp.sessions_owned h, fun _ _ _ _ h ↦ Sftp.sessions_owned h⟩

/-- A look at the object `a`. -/
def ftpStat : Nat → Ftp.Call := fun _ ↦ .stat 0 .a

/-- `Stat` fails on the first session, gives it up, and succeeds on the second
one: the first one has been closed once. -/
theorem remote_sessions_owned_stat :
    ∃ trace c, Run Ftp.machine (Ftp.start ⟨.lit "/", 10⟩ ftpStat) trace c ∧
      c.state.session = some 1 ∧ releases (Ftp.sessions.history trace) 0 = 1 := by
  obtain ⟨trace, c, hexec, hsession, hmu⟩ : ∃ trace c,
      Ftp.machine.exec (fun _ _ ↦ True) Ftp.dropped (.replicate 22 (.call 0))
        (Ftp.start ⟨.lit "/", 10⟩ ftpStat) = some (trace, c) ∧
      c.state.session = some 1 ∧ c.state.mu = none := ⟨_, _, rfl, rfl, rfl⟩
  have hrun := (Machine.run_of_exec hexec).run
  have howned := remote_sessions_owned.1 _ _ _ _ hrun
  refine ⟨trace, c, hrun, hsession, howned.left 0 ?_ ?_ ?_⟩
  · exact .inl Nat.one_pos
  · exact fun h ↦ nomatch (Option.some.inj (hsession.symm.trans h))
  · rintro ⟨-, t, ht, -⟩
    exact nomatch hmu.symm.trans ht

end GoFilesystem
