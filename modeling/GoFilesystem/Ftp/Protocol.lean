import GoFilesystem.Conc.Logic
import GoFilesystem.Ftp.Machine

/-!
# The locks and the streams of the FTP adapter

`Permitted` says when a goroutine may issue a command: the fields of the adapter
are used with `mu` held, the server is talked to with `opMu` held, `opMu` is
released by its owner, and each part of a stream belongs to one of its
goroutines.  `Move` is what that leaves for a step to do, seen from the others.

Every permitted step keeps the invariant (`Inv.step`), so it remains to show
that the programs issue only permitted commands.
-/

namespace GoFilesystem.Ftp

open Go Conc

/-! ## The protocol -/

/-- The latest `Retrieve` of a stream has returned, without an error or with
`io.EOF`, and the caller has received every byte it wrote. -/
def Ended (x : Stream) : Prop :=
  ∃ result attempts, x.attempts = ⟨x.pipe.transferred, some result⟩ :: attempts ∧
    (result = none ∨ result = some (.sentinel .eof))

/-- `opMu` may be released: by a call that started no transfer, or by a transfer
that is over. -/
def Releases (t : Tid) (s : State) : Prop :=
  match t with
  | .call n => (s.streams n).started = false
  | .transfer n => (s.streams n).started = true ∧ (s.streams n).done = true
  | .watch _ => False

/-- The steps of each goroutine on the pipe of a stream. -/
def PermittedPipe (t : Tid) (n : StreamId) (c : Pipe.Cmd UInt8 Err) (x : Stream) : Prop :=
  match c with
  | .enterRead | .receive | .closeRead _ => t ≠ .transfer n
  | .enterWrite | .offer _ | .await => t = .transfer n ∧ x.pipe.werr = none
  | .closeWrite err => t = .transfer n ∧ x.pipe.werr = none ∧ x.pipe.offer = .nothing ∧
      (err.getD (.sentinel .eof) = .sentinel .eof → x.pipe.rerr = none → Ended x)

/-- A stream may be aborted by the call that runs the function under its
`closeOnce`, and by its watcher after the context is done. -/
def PermittedAbort (calls : Nat → Call) (t : Tid) (s : State) : Prop :=
  match t with
  | .call m => ∀ n, calls m = .closeStream n → (s.streams n).once = .running m
  | .transfer _ => False
  | .watch n => (s.streams n).watcher = .cancelling

def Permitted (calls : Nat → Call) (t : Tid) (s : State) : Cmd → Prop
  | .opUnlock => s.opMu = some t.owner ∧ Releases t s
  | .unlock | .loadClosed | .storeClosed | .loadSession | .storeSession _ | .connect _ =>
    s.mu = some t
  | .stat _ _ | .list _ _ | .makeDir _ _ | .delete _ _ | .rename _ _ _ | .store _ _ _ _ =>
    s.opMu = some t.owner
  | .quit _ => s.mu = some t ∧ s.opMu = some t.owner
  | .abort _ => PermittedAbort calls t s
  | .retrieve _ _ | .retrieving _ =>
    s.opMu = some t.owner ∧ t = .transfer t.owner ∧ (s.streams t.owner).started = true ∧
      (s.streams t.owner).pipe.werr = none
  | .start n _ _ _ => t = .call n ∧ s.opMu = some n
  | .pipe n c => (s.streams n).started = true ∧ PermittedPipe t n c (s.streams n)
  | .select n _ | .endSelect n => t = .watch n ∧ (s.streams n).started = true
  | .onceDo n => t = .call t.owner ∧ (s.streams n).started = true
  | .onceDone n => t = .call t.owner ∧ (s.streams n).once = .running t.owner
  | .closeDone n => t = .transfer n ∧ (s.streams n).started = true ∧
      (s.streams n).pipe.werr ≠ none
  | _ => True

structure StreamInv (s : State) (n : StreamId) : Prop where
  unused : (s.streams n).started = false → s.streams n = {}
  /-- A transfer in progress owns `opMu`. -/
  owned : (s.streams n).started = true → (s.streams n).done = false → s.opMu = some n
  closed : (s.streams n).pipe.done = true →
    (s.streams n).pipe.rerr ≠ none ∨ (s.streams n).pipe.werr ≠ none
  offer : (s.streams n).pipe.werr ≠ none → (s.streams n).pipe.offer = .nothing
  eof : (s.streams n).pipe.werr = some (.sentinel .eof) → (s.streams n).pipe.rerr = none →
    Ended (s.streams n)

def Inv (s : State) : Prop := ∀ n, StreamInv s n

def protocol (calls : Nat → Call) : Protocol machine where
  Inv := Inv
  Guar t c r s s' := Permitted calls t s c ∧ apply t c r s = some s'

/-! ## What a step does -/

inductive StreamMove (t : Tid) (n : StreamId) : Stream → Stream → Prop
  | same (x) : StreamMove t n x x
  | start {x} (ht : t = .call n) (hx : x.started = false) (session ctx path) :
      StreamMove t n x { started := true, session, ctx, path }
  | receive {x p data} (ht : t ≠ .transfer n)
      (hp : Pipe.apply .receive (.ok data) x.pipe = some p) : StreamMove t n x { x with pipe := p }
  | closeRead (x) (ht : t ≠ .transfer n) (err) :
      StreamMove t n x { x with pipe := x.pipe.closeRead err }
  | write {x} (ht : t = .transfer n) (hx : x.pipe.werr = none) (p) :
      StreamMove t n x { x with pipe := p }
  | attempt {x} (ht : t = .transfer n) (hx : x.pipe.werr = none) (attempts) :
      StreamMove t n x { x with attempts }
  | closeDone (x) (ht : t = .transfer n) : StreamMove t n x { x with done := true }
  | watcher (x) (ht : t = .watch n) (watcher) : StreamMove t n x { x with watcher }
  | onceDo {x} {m} (ht : t = .call m) (hx : x.once = .fresh) :
      StreamMove t n x { x with once := .running m }
  | onceDone {x} {m} (ht : t = .call m) (hx : x.once = .running m) :
      StreamMove t n x { x with once := .finished }

/-- What a step of a goroutine does to the locks and to the streams. -/
structure Move (t : Tid) (s s' : State) : Prop where
  opMu : s'.opMu = s.opMu ∨ (s.opMu = none ∧ s'.opMu = some t.owner) ∨
    (s.opMu = some t.owner ∧ Releases t s ∧ s'.opMu = none)
  mu : s'.mu = s.mu ∨ (s.mu = none ∧ s'.mu = some t) ∨ (s.mu = some t ∧ s'.mu = none)
  streams : ∀ n, StreamMove t n (s.streams n) (s'.streams n)

variable {calls : Nat → Call} {t : Tid} {s s' : State} {n : StreamId} {f : Stream → Stream}
  {p : Pipe.State UInt8 Err}

theorem Move.of_eq (hop : s'.opMu = s.opMu) (hmu : s'.mu = s.mu)
    (hstreams : s'.streams = s.streams) : Move t s s' :=
  ⟨.inl hop, .inl hmu, fun _ ↦ hstreams ▸ .same _⟩

theorem Move.of_stream (h : StreamMove t n (s.streams n) (f (s.streams n))) :
    Move t s (s.modifyStream n f) := by
  refine ⟨.inl rfl, .inl rfl, fun m ↦ ?_⟩
  by_cases hm : m = n
  · subst hm
    rwa [streams_modifyStream_self]
  · rw [streams_modifyStream_of_ne s hm]
    exact .same _

theorem streamMove_of_pipe {x : Stream} {c : Pipe.Cmd UInt8 Err} {r : c.Resp}
    (hc : PermittedPipe t n c x) (h : Pipe.apply c r x.pipe = some p) :
    StreamMove t n x { x with pipe := p } := by
  cases c with
  | enterRead =>
      obtain ⟨rfl, -⟩ := Pipe.apply_enterRead h
      exact .same x
  | receive =>
      cases r with
      | error err =>
          obtain ⟨rfl, -⟩ := Pipe.apply_receive_error h
          exact .same x
      | ok data => exact .receive hc h
  | closeRead err =>
      cases h
      exact .closeRead x hc err
  | closeWrite err => exact .write hc.1 hc.2.1 p
  | _ => exact .write hc.1 hc.2 p

/-- Every permitted step is a move. -/
theorem move {c : Cmd} {r : c.Resp} (hc : Permitted calls t s c)
    (h : apply t c r s = some s') : Move t s s' := by
  by_cases hquiet : Quiet c
  · obtain ⟨hop, hmu, hstreams⟩ := apply_quiet hquiet h
    exact .of_eq hop hmu hstreams
  cases c with
  | opLock =>
      obtain ⟨hfree, rfl⟩ := of_ite_some h
      exact ⟨.inr (.inl ⟨hfree, rfl⟩), .inl rfl, fun _ ↦ .same _⟩
  | opUnlock =>
      obtain ⟨-, rfl⟩ := of_ite_some h
      exact ⟨.inr (.inr ⟨hc.1, hc.2, rfl⟩), .inl rfl, fun _ ↦ .same _⟩
  | lock =>
      obtain ⟨hfree, rfl⟩ := of_ite_some h
      exact ⟨.inl rfl, .inr (.inl ⟨hfree, rfl⟩), fun _ ↦ .same _⟩
  | unlock =>
      obtain ⟨-, rfl⟩ := of_ite_some h
      exact ⟨.inl rfl, .inr (.inr ⟨hc, rfl⟩), fun _ ↦ .same _⟩
  | start n session ctx path =>
      obtain ⟨hstarted, rfl⟩ := apply_start h
      exact .of_stream (.start hc.1 hstarted session ctx path)
  | pipe n c =>
      obtain ⟨p, hp, rfl⟩ := apply_pipe h
      exact .of_stream (streamMove_of_pipe hc.2 hp)
  | select n ctx =>
      rcases apply_select h with ⟨-, rfl⟩ | ⟨-, rfl⟩
      · exact .of_stream (.watcher _ hc.1 _)
      · exact .of_stream (.watcher _ hc.1 _)
  | endSelect n =>
      cases h
      exact .of_stream (.watcher _ hc.1 _)
  | onceDo n =>
      rcases apply_onceDo h with ⟨hfresh, -, rfl⟩ | ⟨-, rfl⟩
      · exact .of_stream (.onceDo hc.1 hfresh)
      · exact .of_eq rfl rfl rfl
  | onceDone n =>
      cases h
      exact .of_stream (.onceDone hc.1 hc.2)
  | closeDone n =>
      cases h
      exact .of_stream (.closeDone _ hc.1)
  | retrieve session name =>
      cases h
      exact .of_stream (.attempt hc.2.1 hc.2.2.2 _)
  | retrieving session =>
      cases h
      exact .of_stream (.attempt hc.2.1 hc.2.2.2 _)
  | _ => exact absurd trivial hquiet

/-! ## The invariant -/

theorem Inv.congr (hs : Inv s) (hop : s'.opMu = s.opMu) (hstreams : s'.streams = s.streams) :
    Inv s' := by
  intro n
  obtain ⟨hunused, howned, hclosed, hoffer, heof⟩ := hs n
  refine ⟨?_, ?_, ?_, ?_, ?_⟩ <;> rw [hstreams]
  · exact hunused
  · exact hop ▸ howned
  · exact hclosed
  · exact hoffer
  · exact heof

/-- A change of one stream. -/
theorem Inv.modifyStream (hs : Inv s) (h : StreamInv (s.modifyStream n f) n) :
    Inv (s.modifyStream n f) := by
  intro m
  by_cases hm : m = n
  · exact hm ▸ h
  · have heq := streams_modifyStream_of_ne s hm f
    obtain ⟨hunused, howned, hclosed, hoffer, heof⟩ := hs m
    refine ⟨?_, ?_, ?_, ?_, ?_⟩ <;> rw [heq]
    · exact hunused
    · exact howned
    · exact hclosed
    · exact hoffer
    · exact heof

/-- A change of one stream in progress that leaves its pipe and its attempts
alone. -/
theorem Inv.modifyRest (hs : Inv s) (hstarted : (f (s.streams n)).started = true)
    (hdone : (f (s.streams n)).done = false → s.opMu = some n)
    (hpipe : (f (s.streams n)).pipe = (s.streams n).pipe)
    (hattempts : (f (s.streams n)).attempts = (s.streams n).attempts) :
    Inv (s.modifyStream n f) := by
  refine hs.modifyStream ⟨?_, ?_, ?_, ?_, ?_⟩ <;> rw [streams_modifyStream_self]
  · intro h
    rw [hstarted] at h
    contradiction
  · exact fun _ ↦ hdone
  · exact hpipe ▸ (hs n).closed
  · exact hpipe ▸ (hs n).offer
  · rw [hpipe]
    intro hwerr hrerr
    obtain ⟨result, attempts, heq, hresult⟩ := (hs n).eof hwerr hrerr
    exact ⟨result, attempts, by rw [hattempts, hpipe, heq], hresult⟩

/-- A step on the pipe of a stream. -/
theorem Inv.modifyPipe (hs : Inv s) (hstarted : (s.streams n).started = true)
    (hclosed : p.done = true → p.rerr ≠ none ∨ p.werr ≠ none)
    (hoffer : p.werr ≠ none → p.offer = .nothing)
    (heof : p.werr = some (.sentinel .eof) → p.rerr = none → Ended { s.streams n with pipe := p }) :
    Inv (s.modifyStream n ({ · with pipe := p })) := by
  refine hs.modifyStream ⟨?_, ?_, ?_, ?_, ?_⟩ <;> rw [streams_modifyStream_self]
  · intro h
    exact absurd (hstarted.symm.trans h) (by simp)
  · exact (hs n).owned
  · exact hclosed
  · exact hoffer
  · exact heof

theorem Inv.pipe_step (hs : Inv s) {c : Pipe.Cmd UInt8 Err} {r : c.Resp}
    (hstarted : (s.streams n).started = true) (hc : PermittedPipe t n c (s.streams n))
    (h : Pipe.apply c r (s.streams n).pipe = some p) :
    Inv (s.modifyStream n ({ · with pipe := p })) := by
  have hsn := hs n
  cases c with
  | enterRead =>
      obtain ⟨rfl, -⟩ := Pipe.apply_enterRead h
      exact hs.modifyPipe hstarted hsn.closed hsn.offer hsn.eof
  | enterWrite =>
      obtain ⟨rfl, -⟩ := Pipe.apply_enterWrite h
      exact hs.modifyPipe hstarted hsn.closed hsn.offer hsn.eof
  | receive =>
      cases r with
      | error err =>
          obtain ⟨rfl, -⟩ := Pipe.apply_receive_error h
          exact hs.modifyPipe hstarted hsn.closed hsn.offer hsn.eof
      | ok data =>
          obtain ⟨bytes, hpending, -, rfl⟩ := Pipe.apply_receive_ok h
          -- nothing is pending once the writing end is closed
          have hwerr : (s.streams n).pipe.werr = none := by
            by_contra hwerr
            exact nomatch hpending.symm.trans (hsn.offer hwerr)
          refine hs.modifyPipe hstarted hsn.closed (fun h ↦ absurd hwerr h) ?_
          intro heof
          exact nomatch hwerr.symm.trans heof
  | offer bytes =>
      obtain ⟨-, rfl⟩ := Pipe.apply_offer h
      refine hs.modifyPipe hstarted hsn.closed (fun h ↦ absurd hc.2 h) ?_
      intro heof
      exact nomatch hc.2.symm.trans heof
  | await =>
      have hwerr := hc.2
      cases r with
      | error err =>
          obtain ⟨-, -, -, -, rfl⟩ := Pipe.apply_await_error h
          refine hs.modifyPipe hstarted hsn.closed (fun h ↦ absurd hwerr h) ?_
          intro heof
          exact nomatch hwerr.symm.trans heof
      | ok count =>
          obtain ⟨-, rfl⟩ := Pipe.apply_await_ok h
          refine hs.modifyPipe hstarted hsn.closed (fun h ↦ absurd hwerr h) ?_
          intro heof
          exact nomatch hwerr.symm.trans heof
  | closeRead err =>
      cases h
      have hrerr : ((s.streams n).pipe.closeRead err).rerr ≠ none := by
        simp [Pipe.State.closeRead]
      exact hs.modifyPipe hstarted (fun _ ↦ .inl hrerr) hsn.offer fun _ h ↦ absurd h hrerr
  | closeWrite err =>
      cases h
      obtain ⟨-, hwerr, hoffer, hended⟩ := hc
      have hwerr' : ((s.streams n).pipe.closeWrite err).werr =
          some (err.getD (.sentinel .eof)) := by
        simp only [Pipe.State.closeWrite, hwerr]
        rfl
      refine hs.modifyPipe hstarted (fun _ ↦ .inr (by simp [hwerr'])) (fun _ ↦ hoffer) ?_
      intro heof hrerr
      exact hended (Option.some.inj (hwerr'.symm.trans heof)) hrerr

/-- A change of the latest attempts of a transfer in progress. -/
theorem Inv.modifyAttempts (hs : Inv s) {f : List Attempt → List Attempt}
    (hstarted : (s.streams n).started = true) (hwerr : (s.streams n).pipe.werr = none) :
    Inv (s.modifyStream n fun x ↦ { x with attempts := f x.attempts }) := by
  refine hs.modifyStream ⟨?_, ?_, ?_, ?_, ?_⟩ <;> rw [streams_modifyStream_self]
  · intro h
    exact absurd (hstarted.symm.trans h) (by simp)
  · exact (hs n).owned
  · exact (hs n).closed
  · exact (hs n).offer
  · intro heof
    exact nomatch hwerr.symm.trans heof

/-- A goroutine that may release `opMu` leaves no transfer behind. -/
theorem Inv.done_of_releases (hs : Inv s) (howner : s.opMu = some t.owner) (h : Releases t s)
    (hstarted : (s.streams n).started = true) : (s.streams n).done = true := by
  by_contra hdone
  have hn := (hs n).owned hstarted (Bool.not_eq_true _ ▸ hdone)
  cases howner.symm.trans hn
  cases t with
  | call n => exact nomatch h.symm.trans hstarted
  | transfer n => exact hdone h.2
  | watch n => exact h

theorem Inv.step {c : Cmd} {r : c.Resp} (hs : Inv s) (hc : Permitted calls t s c)
    (h : apply t c r s = some s') : Inv s' := by
  by_cases hquiet : Quiet c
  · obtain ⟨hop, -, hstreams⟩ := apply_quiet hquiet h
    exact hs.congr hop hstreams
  cases c with
  | opLock =>
      obtain ⟨hfree, rfl⟩ := of_ite_some h
      intro n
      have howned : (s.streams n).started = true → (s.streams n).done ≠ false := by
        intro hstarted hdone
        exact nomatch hfree.symm.trans ((hs n).owned hstarted hdone)
      exact { hs n with owned := fun hstarted hdone ↦ absurd hdone (howned hstarted) }
  | opUnlock =>
      obtain ⟨-, rfl⟩ := of_ite_some h
      intro n
      refine { hs n with owned := fun hstarted hdone ↦ ?_ }
      have hdone' := hs.done_of_releases hc.1 hc.2 hstarted
      exact nomatch hdone.symm.trans hdone'
  | lock =>
      obtain ⟨-, rfl⟩ := of_ite_some h
      exact hs.congr rfl rfl
  | unlock =>
      obtain ⟨-, rfl⟩ := of_ite_some h
      exact hs.congr rfl rfl
  | start n session ctx path =>
      obtain ⟨hstarted, rfl⟩ := apply_start h
      refine hs.modifyStream ⟨?_, ?_, ?_, ?_, ?_⟩ <;> rw [streams_modifyStream_self]
      · exact nofun
      · exact fun _ _ ↦ hc.2
      · exact nofun
      · exact fun h ↦ absurd rfl h
      · exact nofun
  | pipe n c =>
      obtain ⟨p, hp, rfl⟩ := apply_pipe h
      exact hs.pipe_step hc.1 hc.2 hp
  | select n ctx =>
      rcases apply_select h with ⟨-, rfl⟩ | ⟨-, rfl⟩
      · exact hs.modifyRest hc.2 ((hs n).owned hc.2) rfl rfl
      · exact hs.modifyRest hc.2 ((hs n).owned hc.2) rfl rfl
  | endSelect n =>
      cases h
      exact hs.modifyRest hc.2 ((hs n).owned hc.2) rfl rfl
  | onceDo n =>
      rcases apply_onceDo h with ⟨-, -, rfl⟩ | ⟨-, rfl⟩
      · exact hs.modifyRest hc.2 ((hs n).owned hc.2) rfl rfl
      · exact hs
  | onceDone n =>
      cases h
      have hstarted : (s.streams n).started = true := by
        by_contra hstarted
        have honce := hc.2
        rw [(hs n).unused (Bool.not_eq_true _ ▸ hstarted)] at honce
        contradiction
      exact hs.modifyRest hstarted ((hs n).owned hstarted) rfl rfl
  | closeDone n =>
      cases h
      exact hs.modifyRest hc.2.1 nofun rfl rfl
  | retrieve session name =>
      cases h
      exact hs.modifyAttempts hc.2.2.1 hc.2.2.2
  | retrieving session =>
      cases h
      exact hs.modifyAttempts hc.2.2.1 hc.2.2.2
  | _ => exact absurd trivial hquiet

/-! ## Rules -/

theorem stable_of_move {L : State → Prop}
    (h : ∀ t' ≠ t, ∀ s s', Inv s → Move t' s s' → L s → L s') :
    (protocol calls).Stable t L := by
  intro t' ht c r s s' hs _ hguar hl
  exact h t' ht s s' hs (move hguar.1 hguar.2) hl

/-- A permitted command. -/
theorem command (t : Tid) (c : Cmd) {L : State → Prop} {Q : c.Resp → State → Prop}
    (hc : ∀ s, Inv s → L s → Permitted calls t s c) (hstable : ∀ r, (protocol calls).Stable t (Q r))
    (h : ∀ s r s', Inv s → L s → apply t c r s = some s' → Q r s') :
    (protocol calls).Triple t (perform c) L Q := by
  refine Protocol.Triple.command hstable ?_
  intro s r s' hs hl happly
  have hpermitted := hc s hs hl
  exact ⟨hs.step hpermitted happly, ⟨hpermitted, happly⟩, h s r s' hs hl happly⟩

/-- An assertion about `opMu` and the streams that the others keep. -/
structure Local (calls : Nat → Call) (t : Tid) (L : State → Prop) : Prop where
  stable : (protocol calls).Stable t L
  congr : ∀ s s', s'.opMu = s.opMu → s'.streams = s.streams → L s → L s'

/-- A goroutine that has locked `mu`. -/
def Locked (t : Tid) (L : State → Prop) (s : State) : Prop := s.mu = some t ∧ L s

theorem Local.stable_locked {L : State → Prop} (h : Local calls t L) :
    (protocol calls).Stable t (Locked t L) := by
  refine Protocol.Stable.and (stable_of_move fun t' ht s s' _ hmove hmu ↦ ?_) h.stable
  rcases hmove.mu with heq | ⟨hfree, -⟩ | ⟨hmine, -⟩
  · exact heq.trans hmu
  · exact nomatch hfree.symm.trans hmu
  · exact absurd (Option.some.inj (hmine.symm.trans hmu)) ht

section Quiet

variable {L : State → Prop} (h : Local calls t L)

include h

/-- A command that leaves the locks and the streams alone. -/
theorem Local.quiet (c : Cmd) (hquiet : Quiet c) (hc : ∀ s, Inv s → L s → Permitted calls t s c) :
    (protocol calls).Triple t (perform c) L fun _ ↦ L := by
  refine command t c hc (fun _ ↦ h.stable) ?_
  intro s r s' _ hl happly
  obtain ⟨hop, -, hstreams⟩ := apply_quiet hquiet happly
  exact h.congr s s' hop hstreams hl

/-- The same with `mu` held. -/
theorem Local.quietLocked (c : Cmd) (hquiet : Quiet c)
    (hc : ∀ s, Inv s → Locked t L s → Permitted calls t s c) :
    (protocol calls).Triple t (perform c) (Locked t L) fun _ ↦ Locked t L := by
  refine command t c hc (fun _ ↦ h.stable_locked) ?_
  intro s r s' _ hl happly
  obtain ⟨hop, hmu, hstreams⟩ := apply_quiet hquiet happly
  exact ⟨hmu.trans hl.1, h.congr s s' hop hstreams hl.2⟩

theorem Local.lock :
    (protocol calls).Triple t (perform .lock) L fun _ ↦ Locked t L := by
  refine command t .lock (fun _ _ _ ↦ trivial) (fun _ ↦ h.stable_locked) ?_
  intro s r s' _ hl happly
  obtain ⟨-, rfl⟩ := of_ite_some happly
  exact ⟨rfl, h.congr s _ rfl rfl hl⟩

theorem Local.unlock :
    (protocol calls).Triple t (perform .unlock) (Locked t L) fun _ ↦ L := by
  refine command t .unlock (fun _ _ hl ↦ hl.1) (fun _ ↦ h.stable) ?_
  intro s r s' _ hl happly
  obtain ⟨-, rfl⟩ := of_ite_some happly
  exact h.congr s _ rfl rfl hl.2

end Quiet

end GoFilesystem.Ftp
