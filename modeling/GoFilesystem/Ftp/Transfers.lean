import GoFilesystem.Ftp.Streams

/-!
# What a stream aborts and how it ends

Two questions about the runs of an adapter.  Does closing or cancelling a stream
abort its own transfer only?  And does a caller who has read to the end of a
stream have the whole file?  Neither holds of every run.  `Close` aborts
whatever the session does, although the transfer of its stream is over, and an
`io.EOF` that `Retrieve` returns as its error reaches the caller as the end of
the file.
-/

namespace GoFilesystem.Ftp

open Go Conc

variable {a : Adapter} {calls : Nat → Call} {t : Tid} {m : Nat} {n : StreamId} {s s' : State}
  {trace : List (Label sig Tid)} {c c' : Config sig State Returns}

/-! ## The end of a stream -/

/-- The latest `Retrieve` of a stream returned nil, and the caller has received
every byte it wrote. -/
def Complete (x : Stream) : Prop :=
  ∃ attempts, x.attempts = ⟨x.pipe.transferred, some none⟩ :: attempts

/-- The latest `Retrieve` of a stream returned `io.EOF` itself as its error. -/
def RetrievedEOF (x : Stream) : Prop :=
  ∃ attempt ∈ x.attempts.head?, attempt.result = some (some (.sentinel .eof))

theorem Ended.complete_iff {x : Stream} (h : Ended x) : Complete x ↔ ¬RetrievedEOF x := by
  obtain ⟨result, attempts, heq, hresult⟩ := h
  constructor
  · rintro ⟨attempts', heq'⟩ ⟨attempt, hattempt, heof⟩
    rw [heq', List.head?_cons, Option.mem_some_iff] at hattempt
    subst hattempt
    exact nomatch heof
  · intro hne
    rcases hresult with rfl | rfl
    · exact ⟨attempts, heq⟩
    · exact absurd ⟨_, by rw [heq]; rfl, rfl⟩ hne

/-- In every run, a caller to whom a read has reported the end of a stream has
received all that the latest `Retrieve` wrote, and that `Retrieve` has returned
nil, exactly if it has not returned `io.EOF` itself. -/
theorem complete_iff_of_read_eof {data : Str} (hrun : Run machine (start a calls) trace c)
    (hm : calls m = .read n)
    (hret : c.threads (.call m) = .ret (.read data (some (.sentinel .eof)))) :
    Complete (c.state.streams n) ↔ ¬RetrievedEOF (c.state.streams n) := by
  have hverified := (verified_start a calls).run hrun
  have hdelivered : Delivered n c.state := hverified.returned hret n data hm rfl
  exact hdelivered.2.complete_iff

/-- A file is opened and its stream read. -/
def openAndRead : Nat → Call
  | 0 => .openStream 0 .a
  | _ => .read 0

/-- A `Retrieve` that writes one byte and returns `err`. -/
def retrieveByte (err : Option Err) : List Attempt → Retrieval
  | ⟨[], _⟩ :: _ => .write (.lit "x")
  | _ => .done err

/-- `Open`, a read that gets the byte, the end of the transfer, and another read. -/
def openAndReadSchedule : List Tid :=
  .replicate 10 (.call 0) ++ .replicate 3 (.call 1) ++ .replicate 7 (.transfer 0) ++ [.call 1] ++
    .replicate 7 (.transfer 0) ++ .replicate 3 (.call 2)

/-- A file of one byte is read to its end. -/
theorem openAndRead_complete :
    ∃ trace c, Run machine (start ⟨.lit "/", 10⟩ openAndRead) trace c ∧
      c.threads (.call 2) = .ret (.read [] (some (.sentinel .eof))) ∧
      Complete (c.state.streams 0) := by
  obtain ⟨trace, c, hexec, hret, hattempts⟩ : ∃ trace c,
      machine.exec (fun _ _ ↦ True) (answer (retrieveByte none)) openAndReadSchedule
        (start ⟨.lit "/", 10⟩ openAndRead) = some (trace, c) ∧
      c.threads (.call 2) = .ret (.read [] (some (.sentinel .eof))) ∧
      (c.state.streams 0).attempts = [⟨.lit "x", some none⟩] := ⟨_, _, rfl, rfl, rfl⟩
  have hrun := (Machine.run_of_exec hexec).run
  refine ⟨trace, c, hrun, hret, (complete_iff_of_read_eof hrun rfl hret).mpr ?_⟩
  rintro ⟨attempt, hattempt, heof⟩
  rw [hattempts, List.head?_cons, Option.mem_some_iff] at hattempt
  subst hattempt
  exact nomatch heof

/-- A transfer that fails with `io.EOF` after one byte is read to its end as well. -/
theorem openAndRead_truncated :
    ∃ trace c, Run machine (start ⟨.lit "/", 10⟩ openAndRead) trace c ∧
      c.threads (.call 1) = .ret (.read (.lit "x") none) ∧
      c.threads (.call 2) = .ret (.read [] (some (.sentinel .eof))) ∧
      (c.state.streams 0).attempts = [⟨.lit "x", some (some (.sentinel .eof))⟩] := by
  obtain ⟨trace, c, hexec, hrest⟩ : ∃ trace c,
      machine.exec (fun _ _ ↦ True) (answer (retrieveByte (some (.sentinel .eof))))
        openAndReadSchedule (start ⟨.lit "/", 10⟩ openAndRead) = some (trace, c) ∧
      c.threads (.call 1) = .ret (.read (.lit "x") none) ∧
      c.threads (.call 2) = .ret (.read [] (some (.sentinel .eof))) ∧
      (c.state.streams 0).attempts = [⟨.lit "x", some (some (.sentinel .eof))⟩] :=
    ⟨_, _, rfl, rfl, rfl, rfl⟩
  exact ⟨trace, c, (Machine.run_of_exec hexec).run, hrest⟩

/-! ## Aborting a transfer -/

/-- The goroutine closes or cancels the stream. -/
def ActsFor (calls : Nat → Call) (t : Tid) (n : StreamId) : Prop :=
  t = .watch n ∨ ∃ m, t = .call m ∧ calls m = .closeStream n

/-- The stream is being closed or cancelled. -/
def Stream.ending (x : Stream) : Bool :=
  match x.once with
  | .running _ => true
  | _ => x.watcher = .cancelling

/-- A step that neither closes nor cancels a stream whose transfer is over, nor
ends a transfer while its stream is being closed or cancelled.  The latter asks for more
than is needed: a transfer may well end once `Abort` has been called for it. -/
def careful (s : State) : Label sig Tid → Bool
  | .call _ (.onceDo n) (r : Bool) => !(r && (s.streams n).done)
  | .call _ (.select n _) (r : Bool) => !(r && (s.streams n).done)
  | .call _ (.closeDone n) _ => !(s.streams n).ending
  | _ => true

/-- A stream that is being closed or cancelled is in progress. -/
def StreamSafe (x : Stream) : Prop := x.ending = true → x.done = false

theorem ending_of_over {x : Stream} (h : Stream.ending { x with watcher := .over } = true) :
    x.ending = true := by
  unfold Stream.ending at h ⊢
  cases honce : x.once <;> simp_all

theorem ending_of_finished {x : Stream} (h : Stream.ending { x with once := .finished } = true) :
    x.ending = true := by
  unfold Stream.ending at h ⊢
  cases honce : x.once <;> simp_all

theorem safe_modifyStream {f : Stream → Stream} (hs : ∀ n, StreamSafe (s.streams n))
    (h : StreamSafe (f (s.streams n))) : ∀ m, StreamSafe ((s.modifyStream n f).streams m) := by
  intro m
  by_cases hm : m = n
  · rw [hm, streams_modifyStream_self]
    exact h
  · rw [streams_modifyStream_of_ne s hm]
    exact hs m

/-- A careful step keeps every stream safe. -/
theorem safe_step {cmd : Cmd} {r : cmd.Resp} (hs : ∀ n, StreamSafe (s.streams n))
    (hcareful : careful s (.call t cmd r) = true) (h : apply t cmd r s = some s') :
    ∀ n, StreamSafe (s'.streams n) := by
  by_cases hquiet : Quiet cmd
  · obtain ⟨-, -, hstreams⟩ := apply_quiet hquiet h
    exact hstreams ▸ hs
  cases cmd with
  | opLock =>
      obtain ⟨-, rfl⟩ := of_ite_some h
      exact hs
  | opUnlock =>
      obtain ⟨-, rfl⟩ := of_ite_some h
      exact hs
  | lock =>
      obtain ⟨-, rfl⟩ := of_ite_some h
      exact hs
  | unlock =>
      obtain ⟨-, rfl⟩ := of_ite_some h
      exact hs
  | start n session ctx path =>
      obtain ⟨-, rfl⟩ := apply_start h
      exact safe_modifyStream hs fun _ ↦ rfl
  | pipe n cmd =>
      obtain ⟨p, -, rfl⟩ := apply_pipe h
      exact safe_modifyStream hs (hs n)
  | select n ctx =>
      rcases apply_select h with ⟨rfl, rfl⟩ | ⟨rfl, rfl⟩
      · exact safe_modifyStream hs fun _ ↦ Bool.not_eq_true' _ ▸ hcareful
      · exact safe_modifyStream hs fun hending ↦ hs n (ending_of_over hending)
  | endSelect n =>
      cases h
      exact safe_modifyStream hs fun hending ↦ hs n (ending_of_over hending)
  | onceDo n =>
      rcases apply_onceDo h with ⟨-, rfl, rfl⟩ | ⟨rfl, rfl⟩
      · exact safe_modifyStream hs fun _ ↦ Bool.not_eq_true' _ ▸ hcareful
      · exact hs
  | onceDone n =>
      cases h
      exact safe_modifyStream hs fun hending ↦ hs n (ending_of_finished hending)
  | closeDone n =>
      cases h
      exact safe_modifyStream hs fun hending ↦ nomatch hcareful.symm.trans (congrArg (!·) hending)
  | retrieve session name =>
      cases h
      exact safe_modifyStream hs (hs _)
  | retrieving session =>
      cases h
      exact safe_modifyStream hs (hs _)
  | _ => exact absurd trivial hquiet

theorem safe_of_run (hrun : RunWhere machine (fun s l ↦ careful s l) (start a calls) trace c) :
    ∀ n, StreamSafe (c.state.streams n) := by
  induction hrun with
  | refl => exact fun _ _ ↦ rfl
  | snoc _ hcareful hstep ih =>
      cases hstep with
      | call hthread happly => exact safe_step ih hcareful happly
      | silent hthread => exact ih

/-- In every run of careful steps, whatever else happens, `Abort` is called for a
stream while its own transfer is in progress, and so no other operation has the
session. -/
theorem abort_only_own_transfer {session : Session} {r : Option Err}
    (hrun : RunWhere machine (fun s l ↦ careful s l) (start a calls) trace c)
    (hstep : Step machine c (.call t (.abort session) r) c') (ht : ActsFor calls t n) :
    (c.state.streams n).started = true ∧ (c.state.streams n).done = false ∧
      c.state.opMu = some n := by
  have hverified := (verified_start a calls).run hrun.run
  obtain ⟨hpermitted, -⟩ : (protocol calls).Guar t (.abort session) r c.state c'.state :=
    (hverified.step hstep).2
  have hending : (c.state.streams n).ending = true := by
    unfold Stream.ending
    rcases ht with rfl | ⟨m, rfl, hm⟩
    · have hwatcher : (c.state.streams n).watcher = .cancelling := hpermitted
      cases (c.state.streams n).once <;> simp [hwatcher]
    · rw [hpermitted n hm]
  have hdone := safe_of_run hrun n hending
  have hstarted : (c.state.streams n).started = true := by
    by_contra hstarted
    rw [(hverified.inv n).unused (Bool.not_eq_true _ ▸ hstarted)] at hending
    exact nomatch hending
  exact ⟨hstarted, hdone, (hverified.inv n).owned hstarted hdone⟩

/-- Two files are opened, and the stream of the first is closed. -/
def openTwo : Nat → Call
  | 0 => .openStream 0 .a
  | 1 => .openStream 0 .b
  | _ => .closeStream 0

/-- A stream is closed while its transfer is in progress. -/
theorem openTwo_close_first :
    ∃ trace c c', RunWhere machine (fun s l ↦ careful s l) (start ⟨.lit "/", 10⟩ openTwo) trace c ∧
      Step machine c (.call (.call 2) (.abort 0) none) c' ∧ c.state.opMu = some 0 := by
  obtain ⟨trace, c, c', hexec, hadvance⟩ : ∃ trace c c',
      machine.exec (fun s l ↦ careful s l) (answer fun _ ↦ .done none)
        (.replicate 10 (.call 0) ++ .replicate 6 (.call 2)) (start ⟨.lit "/", 10⟩ openTwo) =
        some (trace, c) ∧
      machine.advance (answer fun _ ↦ .done none) c (.call 2) =
        some (.call (.call 2) (.abort 0) none, c') := ⟨_, _, _, rfl, rfl⟩
  have hrun := Machine.run_of_exec hexec
  have hstep := Machine.step_of_advance hadvance
  exact ⟨trace, c, c', hrun, hstep,
    (abort_only_own_transfer hrun hstep (.inr ⟨2, rfl, rfl⟩)).2.2⟩

/-- The first transfer is over and the second in progress when the first stream
is closed: `Abort` is called for the first and meets the second. -/
theorem openTwo_abort_second :
    ∃ trace c c', Run machine (start ⟨.lit "/", 10⟩ openTwo) trace c ∧
      Step machine c (.call (.call 2) (.abort 0) none) c' ∧
      (c.state.streams 0).done = true ∧ c.state.opMu = some 1 ∧
      (c.state.streams 1).session = 0 ∧ (c.state.streams 1).started = true ∧
      (c.state.streams 1).done = false := by
  obtain ⟨trace, c, c', hexec, hadvance, hrest⟩ : ∃ trace c c',
      machine.exec (fun _ _ ↦ True) (answer fun _ ↦ .done none)
        (.replicate 10 (.call 0) ++ .replicate 8 (.transfer 0) ++ .replicate 10 (.call 1) ++
          .replicate 6 (.call 2)) (start ⟨.lit "/", 10⟩ openTwo) = some (trace, c) ∧
      machine.advance (answer fun _ ↦ .done none) c (.call 2) =
        some (.call (.call 2) (.abort 0) none, c') ∧
      (c.state.streams 0).done = true ∧ c.state.opMu = some 1 ∧
      (c.state.streams 1).session = 0 ∧ (c.state.streams 1).started = true ∧
      (c.state.streams 1).done = false := ⟨_, _, _, rfl, rfl, rfl, rfl, rfl, rfl, rfl⟩
  exact ⟨trace, c, c', (Machine.run_of_exec hexec).run, Machine.step_of_advance hadvance, hrest⟩

end GoFilesystem.Ftp
