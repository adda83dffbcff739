import GoFilesystem.Ftp.Calls

/-!
# Read streams keep to the protocol

`Read`, `Close` and `watchCancellation` of a stream, and the goroutine that
transfers its file.  That goroutine is the only one to write to the pipe.  When
it closes the pipe without an error, or with `io.EOF`, the latest `Retrieve` has
returned that and the caller has received every byte it wrote.
-/

namespace GoFilesystem.Ftp

open Go Conc

variable {calls : Nat → Call} {t : Tid} {n : StreamId} {x y : Stream} {s s' : State}

/-! ## What the others do to a stream -/

theorem StreamMove.started (hmove : StreamMove t n x y) (hx : x.started = true) :
    y.started = true := by
  cases hmove with
  | start ht hfresh => rfl
  | _ => exact hx

theorem StreamMove.running {m : Nat} (hmove : StreamMove t n x y) (ht : t ≠ .call m)
    (hstarted : x.started = true) (hx : x.once = .running m) : y.once = .running m := by
  cases hmove with
  | start ht' hfresh => exact nomatch hfresh.symm.trans hstarted
  | onceDo ht' hfresh => exact nomatch hfresh.symm.trans hx
  | onceDone ht' hrunning =>
      cases hrunning.symm.trans hx
      exact absurd ht' ht
  | _ => exact hx

theorem StreamMove.watching (hmove : StreamMove t n x y) (ht : t ≠ .watch n)
    (hstarted : x.started = true) : y.watcher = x.watcher := by
  cases hmove with
  | start ht' hfresh => exact nomatch hfresh.symm.trans hstarted
  | watcher ht' => exact absurd ht' ht
  | _ => rfl

/-- What the transfer of a stream can count on. -/
structure BesideTransfer (x y : Stream) : Prop where
  started : y.started = true
  done : y.done = x.done
  pipe : Pipe.Foreign x.pipe y.pipe
  werr : y.pipe.werr = x.pipe.werr
  rerr : y.pipe.rerr = none → x.pipe.rerr = none
  attempts : y.attempts = x.attempts

theorem StreamMove.besideTransfer (hmove : StreamMove t n x y) (ht : t ≠ .transfer n)
    (hstarted : x.started = true) : BesideTransfer x y := by
  cases hmove with
  | start ht' hfresh => exact nomatch hfresh.symm.trans hstarted
  | receive ht' hp =>
      obtain ⟨-, -, -, heq⟩ := Pipe.apply_receive_ok hp
      exact ⟨hstarted, rfl, .receive hp, by rw [heq], by rw [heq]; exact id, rfl⟩
  | closeRead ht' err =>
      refine ⟨hstarted, rfl, .closeRead _ _, rfl, ?_, rfl⟩
      simp [Pipe.State.closeRead]
  | write ht' | attempt ht' | closeDone ht' => exact absurd ht' ht
  | _ => exact ⟨hstarted, rfl, .same _, rfl, id, rfl⟩

/-- After the writing end is closed nothing more is delivered. -/
theorem StreamMove.ended (hmove : StreamMove t n x y) (hstarted : x.started = true)
    (hwerr : x.pipe.werr ≠ none) (hoffer : x.pipe.offer = .nothing) (hx : Ended x) :
    y.pipe.werr ≠ none ∧ Ended y := by
  cases hmove with
  | start ht hfresh => exact nomatch hfresh.symm.trans hstarted
  | receive ht hp =>
      obtain ⟨_, hpending, -⟩ := Pipe.apply_receive_ok hp
      exact nomatch hpending.symm.trans hoffer
  | write ht hnone | attempt ht hnone => exact absurd hnone hwerr
  | _ => exact ⟨hwerr, hx⟩

/-- The writing end of a stream is closed, and the stream has ended. -/
def Delivered (n : StreamId) (s : State) : Prop :=
  (s.streams n).pipe.werr ≠ none ∧ Ended (s.streams n)

theorem Inv.started_of_werr (hs : Inv s) (h : (s.streams n).pipe.werr ≠ none) :
    (s.streams n).started = true := by
  by_contra hstarted
  rw [(hs n).unused (Bool.not_eq_true _ ▸ hstarted)] at h
  exact h rfl

theorem stable_delivered (n : StreamId) : (protocol calls).Stable t (Delivered n) := by
  refine stable_of_move fun t' _ s s' hs hmove ⟨hwerr, hended⟩ ↦ ?_
  exact (hmove.streams n).ended (hs.started_of_werr hwerr) hwerr ((hs n).offer hwerr) hended

/-! ## Reading, closing, watching -/

def Started (n : StreamId) (s : State) : Prop := (s.streams n).started = true

/-- The call runs the function under `closeOnce.Do` of a stream. -/
def Closing (m : Nat) (n : StreamId) (s : State) : Prop :=
  Started n s ∧ (s.streams n).once = .running m

/-- The watcher of a stream has found the context done. -/
def Cancelling (n : StreamId) (s : State) : Prop :=
  Started n s ∧ (s.streams n).watcher = .cancelling

theorem local_started (n : StreamId) : Local calls t (Started n) where
  stable := stable_of_move fun _ _ _ _ _ hmove ↦ (hmove.streams n).started
  congr s s' _ hstreams hl := by
    unfold Started
    rwa [hstreams]

theorem local_closing (m : Nat) (n : StreamId) : Local calls (.call m) (Closing m n) where
  stable := stable_of_move fun _ ht _ _ _ hmove hl ↦
    ⟨(hmove.streams n).started hl.1, (hmove.streams n).running ht hl.1 hl.2⟩
  congr s s' _ hstreams hl := by
    unfold Closing Started
    rwa [hstreams]

theorem local_cancelling (n : StreamId) : Local calls (.watch n) (Cancelling n) where
  stable := stable_of_move fun _ ht _ _ _ hmove hl ↦
    ⟨(hmove.streams n).started hl.1, ((hmove.streams n).watching ht hl.1).trans hl.2⟩
  congr s s' _ hstreams hl := by
    unfold Cancelling Started
    rwa [hstreams]

theorem useStream_triple (m : Nat) (n : StreamId) :
    (protocol calls).Triple (.call m) (perform (.useStream n)) (fun _ ↦ True)
      fun _ ↦ Started n := by
  refine command (.call m) (.useStream n) (fun _ _ _ ↦ trivial)
    (fun _ ↦ (local_started n).stable) ?_
  intro s r s' _ _ happly
  obtain ⟨⟨hstarted, -⟩, rfl⟩ := of_ite_some happly
  exact hstarted

def AfterRead (n : StreamId) (err : Option Err) (s : State) : Prop :=
  Started n s ∧ (err = some (.sentinel .eof) → Delivered n s)

theorem stable_afterRead (n : StreamId) (err : Option Err) :
    (protocol calls).Stable t (AfterRead n err) := by
  refine (local_started n).stable.and ?_
  intro t' ht c r s s' hs hs' hguar hl herr
  exact stable_delivered n t' ht c r s s' hs hs' hguar (hl herr)

/-- A reader sees the end of the stream after the stream has ended. -/
theorem Inv.delivered (hs : Inv s) (h : (s.streams n).pipe.readCloseError = .sentinel .eof) :
    Delivered n s := by
  unfold Pipe.State.readCloseError at h
  split at h
  · rename_i hrerr hwerr
    subst h
    exact ⟨by simp [hwerr], (hs n).eof hwerr hrerr⟩
  · exact nomatch h

theorem pipeRead_triple (m : Nat) (n : StreamId) :
    (protocol calls).Triple (.call m) (Pipe.read fun c ↦ perform (.pipe n c)) (Started n)
      fun r s ↦ match (r : Except Err Str) with
        | .ok _ => True
        | .error err => AfterRead n (some err) s := by
  refine Protocol.Triple.bind (K := fun err ↦ AfterRead n err)
    (command (.call m) (.pipe n .enterRead) ?_ (fun err ↦ stable_afterRead n err) ?_) ?_
  · exact fun s _ hl ↦ ⟨hl, nofun⟩
  · intro s r s' hs hl happly
    obtain ⟨p, hp, rfl⟩ := apply_pipe happly
    obtain ⟨rfl, hr⟩ := Pipe.apply_enterRead hp
    rw [modifyStream_pipe_self]
    refine ⟨hl, fun herr ↦ hs.delivered ?_⟩
    rw [herr] at hr
    exact (Option.some.inj (Option.ite_none_right_eq_some.mp hr.symm).2)
  · rintro (_ | err)
    · refine command (.call m) (.pipe n .receive) ?_ ?_ ?_
      · exact fun s _ hl ↦ ⟨hl.1, nofun⟩
      · rintro (err | data)
        · exact stable_afterRead n (some err)
        · exact Protocol.stable_fact _
      · rintro s (err | data) s' hs hl happly
        · obtain ⟨p, hp, rfl⟩ := apply_pipe happly
          obtain ⟨rfl, -, hr⟩ := Pipe.apply_receive_error hp
          rw [modifyStream_pipe_self]
          exact ⟨hl.1, fun herr ↦ hs.delivered (hr ▸ Option.some.inj herr)⟩
        · trivial
    · exact .keep rfl

theorem ctxErr_ne_eof (err : CtxErr) : err.err ≠ .sentinel .eof := by
  cases err <;> simp [CtxErr.err]

theorem read_triple (m : Nat) (n : StreamId) :
    (protocol calls).Triple (.call m) (read n) (fun _ ↦ True)
      fun r s ↦ r.2 = some (.sentinel .eof) → Delivered n s := by
  refine (useStream_triple m n).bind fun ctx ↦ ?_
  refine ((local_started n).quiet (.ctxDone ctx) trivial fun _ _ _ ↦ trivial).bind ?_
  rintro (_ | _)
  · refine (pipeRead_triple m n).bind ?_
    rintro (err | data)
    · exact .ret fun _ _ hl ↦ hl.2
    · exact .ret fun _ _ _ ↦ nofun
  · refine ((local_started n).ctxErr ctx).bind fun err ↦ ?_
    refine .ret fun _ _ _ herr ↦ ?_
    obtain ⟨err, -, heof⟩ := Option.map_eq_some_iff.mp herr
    exact absurd heof (ctxErr_ne_eof err)

theorem closeStream_triple (m : Nat) (n : StreamId) (hm : calls m = .closeStream n) :
    (protocol calls).Triple (.call m) (closeStream n) (fun _ ↦ True) fun _ _ ↦ True := by
  have hstarted : Local calls (.call m) (Started n) := local_started n
  have hclosing : Local calls (.call m) (Closing m n) := local_closing m n
  have hend : ∀ ctx : Ctx, (protocol calls).Triple (.call m) (do
      perform (.awaitDone n)
      let err ← perform (.ctxErr ctx)
      return err.map CtxErr.err) (Started n) fun _ _ ↦ True := by
    intro ctx
    refine (hstarted.quiet (.awaitDone n) trivial fun _ _ _ ↦ trivial).bind fun _ ↦ ?_
    exact (hstarted.ctxErr ctx).bind fun _ ↦ .ret fun _ _ _ ↦ trivial
  refine (useStream_triple m n).bind fun ctx ↦ ?_
  refine Protocol.Triple.bind (K := fun first s ↦ Started n s ∧
    (first = true → Closing m n s)) (command (.call m) (.onceDo n) ?_ ?_ ?_) ?_
  · exact fun s _ hl ↦ ⟨rfl, hl⟩
  · intro first
    refine hstarted.stable.and ?_
    intro t' ht c r s s' hs hs' hguar hl hfirst
    exact hclosing.stable t' ht c r s s' hs hs' hguar (hl hfirst)
  · intro s first s' _ hl happly
    rcases apply_onceDo happly with ⟨-, rfl, rfl⟩ | ⟨rfl, rfl⟩
    · have hstarted' : Started n (s.modifyStream n ({ · with once := .running m })) := by
        rw [Started, streams_modifyStream_self]
        exact hl
      refine ⟨hstarted', fun _ ↦ ⟨hstarted', ?_⟩⟩
      rw [streams_modifyStream_self]
      rfl
    · exact ⟨hl, nofun⟩
  · rintro (_ | _)
    · exact (hend ctx).conseq (fun _ _ hl ↦ hl.1) fun _ _ _ _ ↦ trivial
    · refine Protocol.Triple.bind (K := fun _ ↦ Closing m n)
        (command (.call m) (.pipe n (.closeRead none)) ?_ (fun _ ↦ hclosing.stable) ?_) fun _ ↦ ?_
      · exact fun s _ hl ↦ ⟨hl.1, nofun⟩
      · intro s r s' _ hl happly
        obtain ⟨p, -, rfl⟩ := apply_pipe happly
        rw [Closing, Started, streams_modifyStream_self]
        exact hl.2 rfl
      refine (hclosing.abortTransfer ?_).bind fun _ ↦ ?_
      · intro s _ hl n' hn'
        cases hm.symm.trans hn'
        exact hl.2
      refine Protocol.Triple.bind (K := fun _ ↦ Started n)
        (command (.call m) (.onceDone n) ?_ (fun _ ↦ hstarted.stable) ?_) fun _ ↦ hend ctx
      · exact fun s _ hl ↦ ⟨rfl, hl.2⟩
      · intro s r s' _ hl happly
        cases happly
        rw [Started, streams_modifyStream_self]
        exact hl.1

theorem watchCancellation_triple (n : StreamId) :
    (protocol calls).Triple (.watch n) (watchCancellation n) (fun _ ↦ True)
      fun _ _ ↦ True := by
  have hcancelling : Local calls (.watch n) (Cancelling n) := local_cancelling n
  refine Protocol.Triple.bind (K := fun _ ↦ Started n) (command (.watch n) (.beginWatch n)
    (fun _ _ _ ↦ trivial) (fun _ ↦ (local_started n).stable) ?_) fun ctx ↦ ?_
  · intro s r s' _ _ happly
    obtain ⟨⟨hstarted, -⟩, rfl⟩ := of_ite_some happly
    exact hstarted
  refine Protocol.Triple.bind (K := fun first s ↦ first = true → Cancelling n s)
    (command (.watch n) (.select n ctx) ?_ ?_ ?_) ?_
  · exact fun s _ hl ↦ ⟨rfl, hl⟩
  · intro first t' ht c r s s' hs hs' hguar hl hfirst
    exact hcancelling.stable t' ht c r s s' hs hs' hguar (hl hfirst)
  · intro s first s' _ hl happly
    rcases apply_select happly with ⟨rfl, rfl⟩ | ⟨rfl, rfl⟩
    · intro _
      rw [Cancelling, Started, streams_modifyStream_self]
      exact ⟨hl, rfl⟩
    · exact nofun
  · rintro (_ | _)
    · exact .ret fun _ _ _ ↦ trivial
    · refine Protocol.Triple.bind ((hcancelling.ctxErr ctx).pre fun _ _ hl ↦ hl rfl)
        fun err ↦ ?_
      refine Protocol.Triple.bind (K := fun _ ↦ Cancelling n) (command (.watch n)
        (.pipe n (.closeRead (err.map CtxErr.err))) ?_ (fun _ ↦ hcancelling.stable) ?_) fun _ ↦ ?_
      · exact fun s _ hl ↦ ⟨hl.1, nofun⟩
      · intro s r s' _ hl happly
        obtain ⟨p, -, rfl⟩ := apply_pipe happly
        rw [Cancelling, Started, streams_modifyStream_self]
        exact hl
      refine (hcancelling.abortTransfer fun _ _ hl ↦ hl.2).bind fun _ ↦ ?_
      refine command (.watch n) (.endSelect n) ?_ (fun _ ↦ Protocol.stable_fact _) ?_
      · exact fun s _ hl ↦ ⟨rfl, hl.1⟩
      · exact fun _ _ _ _ _ _ ↦ trivial

/-! ## Transferring -/

/-- The transfer of a stream is in progress and has made some attempts; unless
the reader is closed, `φ`. -/
structure Owned (n : StreamId) (φ : Prop) (attempts : List Attempt) (s : State) : Prop where
  started : (s.streams n).started = true
  done : (s.streams n).done = false
  werr : (s.streams n).pipe.werr = none
  rerr : (s.streams n).pipe.rerr = none → φ
  attempts : (s.streams n).attempts = attempts

variable {φ : Prop} {attempts : List Attempt}

theorem Owned.beside (ht : t ≠ .transfer n) (hmove : Move t s s') (h : Owned n φ attempts s) :
    Owned n φ attempts s' := by
  have hb := (hmove.streams n).besideTransfer ht h.started
  exact ⟨hb.started, hb.done.trans h.done, hb.werr.trans h.werr, fun hnone ↦ h.rerr (hb.rerr hnone),
    hb.attempts.trans h.attempts⟩

theorem stable_owned (n : StreamId) (φ : Prop) (attempts : List Attempt) :
    (protocol calls).Stable (.transfer n) (Owned n φ attempts) :=
  stable_of_move fun _ ht _ _ _ hmove ↦ Owned.beside ht hmove

theorem Owned.congr (hstreams : s'.streams = s.streams) (h : Owned n φ attempts s) :
    Owned n φ attempts s' := by
  obtain ⟨hstarted, hdone, hwerr, hrerr, hattempts⟩ := h
  constructor <;> rw [hstreams] <;> assumption

theorem StreamMove.foreign (hmove : StreamMove t n x y) (ht : t ≠ .transfer n)
    (hunused : x.started = false → x = {}) : Pipe.Foreign x.pipe y.pipe := by
  cases hmove with
  | start ht' hfresh =>
      rw [hunused hfresh]
      exact .same _
  | receive ht' hp => exact .receive hp
  | closeRead ht' err => exact .closeRead _ _
  | write ht' | attempt ht' | closeDone ht' => exact absurd ht' ht
  | _ => exact .same _

theorem writerEnd (n : StreamId) (φ : Prop) (attempts : List Attempt) :
    Pipe.WriterEnd (protocol calls) (.transfer n) (fun s ↦ (s.streams n).pipe)
      (fun c ↦ perform (.pipe n c)) (Owned n φ attempts) where
  others t' ht c r s s' hs _ hguar :=
    ((move hguar.1 hguar.2).streams n).foreign ht (hs n).unused
  stable := stable_owned n φ attempts
  run c hc {L Q} hstable hstep := by
    refine command (.transfer n) (.pipe n c) ?_ ?_ ?_
    · intro s _ ⟨_, hx⟩
      refine ⟨hx.started, ?_⟩
      rcases hc with rfl | rfl | ⟨bytes, rfl⟩ <;> exact ⟨rfl, hx.werr⟩
    · exact fun r ↦ (hstable r).and (stable_owned n φ attempts)
    · intro s r s' hs ⟨hl, hx⟩ happly
      obtain ⟨p, hp, rfl⟩ := apply_pipe happly
      have hpipe : ((s.modifyStream n ({ · with pipe := p })).streams n).pipe = p := by
        rw [streams_modifyStream_self]
      refine ⟨hstep s r _ hs hl (hp.trans (congrArg some hpipe.symm)), ?_⟩
      have hends : p.werr = (s.streams n).pipe.werr ∧ p.rerr = (s.streams n).pipe.rerr := by
        rcases hc with rfl | rfl | ⟨bytes, rfl⟩
        · obtain ⟨rfl, -⟩ := Pipe.apply_enterWrite hp
          exact ⟨rfl, rfl⟩
        · rcases r with err | count
          · obtain ⟨-, -, -, -, rfl⟩ := Pipe.apply_await_error hp
            exact ⟨rfl, rfl⟩
          · obtain ⟨-, rfl⟩ := Pipe.apply_await_ok hp
            exact ⟨rfl, rfl⟩
        · obtain ⟨-, rfl⟩ := Pipe.apply_offer hp
          exact ⟨rfl, rfl⟩
      constructor <;> rw [streams_modifyStream_self]
      · exact hx.started
      · exact hx.done
      · exact hends.1.trans hx.werr
      · exact fun hnone ↦ hx.rerr (hends.2.symm.trans hnone)
      · exact hx.attempts

/-- During an attempt that has written `bytes`: all of them were delivered,
unless the reader is closed; and none was, unless `wroteAny` is set. -/
def Attempting (n : StreamId) (earlier : List Attempt) (result : Option (Option Err))
    (wroteAny : Bool) (s : State) : Prop :=
  ∃ sent bytes, Pipe.Idle sent (s.streams n).pipe ∧ (wroteAny = false → sent = []) ∧
    Owned n (sent = bytes) (⟨bytes, result⟩ :: earlier) s

theorem local_attempting (n : StreamId) (earlier : List Attempt) (result : Option (Option Err))
    (wroteAny : Bool) : Local calls (.transfer n) (Attempting n earlier result wroteAny) where
  stable := by
    refine stable_of_move fun t' ht s s' hs hmove ⟨sent, bytes, hidle, hwrote, h⟩ ↦ ?_
    have hb := (hmove.streams n).besideTransfer ht h.started
    exact ⟨sent, bytes, hb.pipe.idle hidle, hwrote, h.beside ht hmove⟩
  congr s s' _ hstreams h := by
    obtain ⟨sent, bytes, hidle, hwrote, hx⟩ := h
    rw [← hstreams] at hidle
    exact ⟨sent, bytes, hidle, hwrote, hx.congr hstreams⟩

/-- A write of `Retrieve`. -/
theorem attemptWrite_triple (n : StreamId) (earlier : List Attempt) (sent before bytes : Str)
    (wroteAny : Bool) (hwrote : wroteAny = false → sent = []) :
    (protocol calls).Triple (.transfer n) (Pipe.write (fun c ↦ perform (.pipe n c)) bytes)
      (fun s ↦ Pipe.Idle sent (s.streams n).pipe ∧
        Owned n (sent = before) (⟨before ++ bytes, none⟩ :: earlier) s)
      fun r ↦ Attempting n earlier none (wroteAny || 0 < r.1) := by
  refine ((writerEnd n _ _).write sent bytes).conseq (fun _ _ hl ↦ hl) ?_
  rintro ⟨written, err⟩ s hs ⟨⟨hidle, herr⟩, h⟩
  refine ⟨sent ++ bytes.take written, before ++ bytes, hidle, ?_,
    h.started, h.done, h.werr, ?_, h.attempts⟩
  · intro hfalse
    obtain ⟨hany, hzero⟩ := Bool.or_eq_false_iff.mp hfalse
    obtain rfl : written = 0 := by simpa using hzero
    rw [hwrote hany]
    rfl
  · intro hrerr
    cases err with
    | none =>
        rw [h.rerr hrerr, show written = bytes.length from herr, List.take_length]
    | some err =>
        rcases (hs n).closed herr with hclosed | hclosed
        · exact absurd hrerr hclosed
        · exact absurd h.werr hclosed

/-- What the transfer needs to go on with `Retrieve`. -/
theorem Owned.permitted (hs : Inv s) (h : Owned n φ attempts s) :
    s.opMu = some n ∧ Tid.transfer n = .transfer n ∧ (s.streams n).started = true ∧
      (s.streams n).pipe.werr = none :=
  ⟨(hs n).owned h.started h.done, rfl, h.started, h.werr⟩

theorem retrieveCall_triple (n : StreamId) (session : Session) (name : Str)
    (earlier : List Attempt) :
    (protocol calls).Triple (.transfer n) (perform (.retrieve session name))
      (fun s ↦ Pipe.Idle [] (s.streams n).pipe ∧ Owned n True earlier s)
      fun _ ↦ Attempting n earlier none false := by
  refine command (.transfer n) (.retrieve session name) (fun s hs hl ↦ hl.2.permitted hs)
    (fun _ ↦ (local_attempting n earlier none false).stable) ?_
  intro s _ s' _ ⟨hidle, h⟩ happly
  cases happly
  refine ⟨[], [], ?_, fun _ ↦ rfl, ?_⟩
  · rw [show (Tid.transfer n).owner = n from rfl, streams_modifyStream_self]
    exact hidle
  · constructor <;> rw [show (Tid.transfer n).owner = n from rfl, streams_modifyStream_self]
    · exact h.started
    · exact h.done
    · exact h.werr
    · exact fun _ ↦ rfl
    · exact congrArg _ h.attempts

/-- `Retrieve` is about to write `bytes`, after it has written `before`. -/
def AboutToWrite (n : StreamId) (earlier : List Attempt) (wroteAny : Bool) (bytes : Str)
    (s : State) : Prop :=
  ∃ sent before, (wroteAny = false → sent = []) ∧ Pipe.Idle sent (s.streams n).pipe ∧
    Owned n (sent = before) (⟨before ++ bytes, none⟩ :: earlier) s

theorem stable_aboutToWrite (n : StreamId) (earlier : List Attempt) (wroteAny : Bool)
    (bytes : Str) :
    (protocol calls).Stable (.transfer n) (AboutToWrite n earlier wroteAny bytes) := by
  refine stable_of_move fun t' ht s s' hs hmove ⟨sent, before, hwrote, hidle, h⟩ ↦ ?_
  have hb := (hmove.streams n).besideTransfer ht h.started
  exact ⟨sent, before, hwrote, hb.pipe.idle hidle, h.beside ht hmove⟩

theorem retrieving_triple (n : StreamId) (session : Session) (earlier : List Attempt)
    (wroteAny : Bool) :
    (protocol calls).Triple (.transfer n) (perform (.retrieving session))
      (Attempting n earlier none wroteAny)
      fun r ↦ match (r : Retrieval) with
        | .write bytes => AboutToWrite n earlier wroteAny bytes
        | .done err => Attempting n earlier (some err) wroteAny := by
  refine command (.transfer n) (.retrieving session) ?_ ?_ ?_
  · intro s hs ⟨_, _, _, _, h⟩
    exact h.permitted hs
  · rintro (bytes | err)
    · exact stable_aboutToWrite n earlier wroteAny bytes
    · exact (local_attempting n earlier _ wroteAny).stable
  · intro s r s' _ ⟨sent, bytes, hidle, hwrote, h⟩ happly
    cases happly
    have howned : Owned n (sent = bytes) (advanceAttempt r (⟨bytes, none⟩ :: earlier))
        (s.modifyStream n fun x ↦ { x with attempts := advanceAttempt r x.attempts }) := by
      constructor <;> rw [streams_modifyStream_self]
      · exact h.started
      · exact h.done
      · exact h.werr
      · exact h.rerr
      · exact congrArg (advanceAttempt r) h.attempts
    have hidle' : Pipe.Idle sent
        ((s.modifyStream n fun x ↦ { x with attempts := advanceAttempt r x.attempts }).streams
          n).pipe := by
      rw [streams_modifyStream_self]
      exact hidle
    cases r with
    | write more => exact ⟨sent, bytes, hwrote, hidle', howned⟩
    | done err => exact ⟨sent, bytes, hidle', hwrote, howned⟩

/-- `Retrieve` into a `countingWriter`. -/
theorem retrieve_triple (n : StreamId) (session : Session) (name : Str) (earlier : List Attempt) :
    (protocol calls).Triple (.transfer n) (retrieve n session name false)
      (fun s ↦ Pipe.Idle [] (s.streams n).pipe ∧ Owned n True earlier s)
      fun r ↦ Attempting n earlier (some r.1) r.2 := by
  refine (retrieveCall_triple n session name earlier).bind fun _ ↦ ?_
  refine Protocol.Triple.loop (Attempting n earlier none) ?_ ?_ ?_ false
  · exact fun wroteAny ↦ (local_attempting n earlier none wroteAny).stable
  · exact fun r ↦ (local_attempting n earlier (some r.1) r.2).stable
  · intro wroteAny
    refine (retrieving_triple n session earlier wroteAny).bind ?_
    rintro (bytes | err)
    · refine .of_exists fun sent ↦ .of_exists fun before ↦ .of_fact fun hwrote ↦ ?_
      refine (attemptWrite_triple n earlier sent before bytes wroteAny hwrote).bind ?_
      rintro ⟨written, _⟩
      exact .keep rfl
    · exact .keep rfl

/-- The attempts are over and their error is known: it is nil or `io.EOF` only if
the latest `Retrieve` returned that. -/
def Attempted (n : StreamId) (err : Option Err) (s : State) : Prop :=
  ∃ earlier result wroteAny, (err = none → result = none) ∧
    (err = some (.sentinel .eof) → result = some (.sentinel .eof)) ∧
    Attempting n earlier (some result) wroteAny s

theorem local_attempted (n : StreamId) (err : Option Err) :
    Local calls (.transfer n) (Attempted n err) where
  stable := by
    rintro t' ht c r s s' hs hs' hguar ⟨earlier, result, wroteAny, hnone, heof, h⟩
    refine ⟨earlier, result, wroteAny, hnone, heof, ?_⟩
    exact (local_attempting n earlier _ wroteAny).stable t' ht c r s s' hs hs' hguar h
  congr := by
    rintro s s' hop hstreams ⟨earlier, result, wroteAny, hnone, heof, h⟩
    have hlocal : Local calls (.transfer n) (Attempting n earlier (some result) wroteAny) :=
      local_attempting n earlier _ wroteAny
    exact ⟨earlier, result, wroteAny, hnone, heof, hlocal.congr s s' hop hstreams h⟩

theorem attempts_triple (a : Adapter) (n : StreamId) (session : Session) (ctx : Ctx) (path : Path) :
    (protocol calls).Triple (.transfer n) (Ftp.attempts a n session ctx path)
      (fun s ↦ Pipe.Idle [] (s.streams n).pipe ∧ Owned n True [] s) (Attempted n) := by
  refine (retrieve_triple n session _ []).bind ?_
  rintro ⟨_ | err, wroteAny⟩
  · exact .ret fun _ _ hl ↦ ⟨[], none, wroteAny, fun _ ↦ rfl, nofun, hl⟩
  · dsimp only
    -- the attempt, seen as a frame for what comes before the next one
    have hfirst : Local calls (.transfer n) (Attempting n [] (some (some err)) wroteAny) :=
      local_attempting n [] _ wroteAny
    have hop : ∀ s, Inv s → Attempting n [] (some (some err)) wroteAny s →
        s.opMu = some (Tid.transfer n).owner := by
      intro s hs ⟨_, _, _, _, h⟩
      exact (h.permitted hs).1
    split
    · rename_i hretry
      obtain rfl : wroteAny = false := by simpa using (Bool.and_eq_true_iff.mp hretry).2
      refine (hfirst.ctxErr ctx).bind ?_
      rintro (_ | _)
      · refine (hfirst.invalidate hop session).bind fun _ ↦ ?_
        refine (hfirst.currentSession ctx).bind ?_
        rintro (reconnectErr | reconnected)
        · exact .ret fun _ _ hl ↦ ⟨[], some err, false, nofun, nofun, hl⟩
        · refine Protocol.Triple.bind (K := fun r s ↦ ∃ earlier,
            Attempting n earlier (some r.1) r.2 s) ?_ ?_
          · refine Protocol.Triple.pre (L := fun s ↦ ∃ bytes, Pipe.Idle [] (s.streams n).pipe ∧
              Owned n True [⟨bytes, some (some err)⟩] s) (.of_exists fun bytes ↦ ?_) ?_
            · exact (retrieve_triple n reconnected _ _).conseq (fun _ _ hl ↦ hl)
                fun _ _ _ hq ↦ ⟨_, hq⟩
            · intro s _ ⟨sent, bytes, hidle, hwrote, h⟩
              obtain rfl := hwrote rfl
              exact ⟨bytes, hidle, h.started, h.done, h.werr, fun _ ↦ trivial, h.attempts⟩
          · rintro ⟨err', wroteAny⟩
            refine .ret fun _ _ ⟨earlier, hl⟩ ↦ ?_
            exact ⟨earlier, err', wroteAny, id, id, hl⟩
      · exact .ret fun _ _ hl ↦ ⟨[], some err, false, nofun, fun h ↦ h, hl⟩
    · exact .ret fun _ _ hl ↦ ⟨[], some err, wroteAny, nofun, fun h ↦ h, hl⟩

theorem eof_of_mapError {path : Path} {err : Err} (h : mapError path err = .sentinel .eof) :
    err = .sentinel .eof := by
  unfold mapError Remote.mapError at h
  split at h
  · contradiction
  · exact h

/-- If the pipe is closed as at the end of a stream, the stream has ended. -/
theorem Attempted.ended {err : Option Err} (h : Attempted n err s)
    (contextErr : Option CtxErr) (path : Path)
    (heof : (((contextErr.map CtxErr.err) <|> err).map (mapError path)).getD (.sentinel .eof) =
      .sentinel .eof)
    (hrerr : (s.streams n).pipe.rerr = none) : Ended (s.streams n) := by
  obtain ⟨earlier, result, _, hnone, heof', sent, bytes, hidle, -, hx⟩ := h
  have hresult : result = none ∨ result = some (.sentinel .eof) := by
    cases contextErr with
    | some contextErr => exact absurd (eof_of_mapError heof) (ctxErr_ne_eof contextErr)
    | none =>
        cases err with
        | none => exact .inl (hnone rfl)
        | some err => exact .inr (heof' (congrArg some (eof_of_mapError heof)))
  refine ⟨result, earlier, ?_, hresult⟩
  rw [hx.attempts, hidle.2, hx.rerr hrerr]

/-- The pipe is closed, and `done` is or is not. -/
structure Finishing (n : StreamId) (done : Bool) (s : State) : Prop where
  opMu : s.opMu = some n
  started : (s.streams n).started = true
  done : (s.streams n).done = done
  werr : (s.streams n).pipe.werr ≠ none

theorem stable_finishing (n : StreamId) (done : Bool) :
    (protocol calls).Stable (.transfer n) (Finishing n done) := by
  refine stable_of_move fun t' ht s s' hs hmove h ↦ ?_
  have hb := (hmove.streams n).besideTransfer ht h.started
  refine ⟨hmove.opMu_of_owner h.opMu ?_, hb.started, hb.done.trans h.done, hb.werr ▸ h.werr⟩
  rintro rfl hreleases
  cases t' with
  | call n => exact nomatch hreleases.symm.trans h.started
  | transfer n => exact ht rfl
  | watch n => exact hreleases

theorem closeWrite_triple (n : StreamId) (err : Option Err) (contextErr : Option CtxErr)
    (path : Path) :
    (protocol calls).Triple (.transfer n)
      (perform (.pipe n (.closeWrite (((contextErr.map CtxErr.err) <|> err).map (mapError path)))))
      (Attempted n err) fun _ ↦ Finishing n false := by
  refine command (.transfer n) (.pipe n (.closeWrite _)) ?_ (fun _ ↦ stable_finishing n false) ?_
  · intro s _ h
    have hended := h.ended contextErr path
    obtain ⟨_, _, _, -, -, _, _, hidle, -, hx⟩ := h
    exact ⟨hx.started, rfl, hx.werr, hidle.1, hended⟩
  · intro s _ s' hs ⟨_, _, _, _, _, _, _, _, _, hx⟩ happly
    obtain ⟨p, hp, rfl⟩ := apply_pipe happly
    cases hp
    refine ⟨(hs n).owned hx.started hx.done, ?_, ?_, ?_⟩ <;> rw [streams_modifyStream_self]
    · exact hx.started
    · exact hx.done
    · simp [Pipe.State.closeWrite]

theorem StreamMove.eq_of_started (hmove : StreamMove t n x y) (hx : x.started = false)
    (hy : y.started = true) :
    ∃ session ctx path, y = { started := true, session, ctx, path } := by
  cases hmove with
  | start ht' hfresh session ctx path => exact ⟨session, ctx, path, rfl⟩
  | _ => exact nomatch hx.symm.trans hy

/-- Before the transfer begins, nothing has happened to its stream. -/
def Waiting (n : StreamId) (s : State) : Prop :=
  (s.streams n).started = true → Pipe.Idle [] (s.streams n).pipe ∧ Owned n True [] s

theorem stable_waiting (n : StreamId) : (protocol calls).Stable (.transfer n) (Waiting n) := by
  refine stable_of_move fun t' ht s s' hs hmove h hstarted' ↦ ?_
  cases hstarted : (s.streams n).started with
  | true =>
      obtain ⟨hidle, hx⟩ := h hstarted
      have hb := (hmove.streams n).besideTransfer ht hstarted
      exact ⟨hb.pipe.idle hidle, hx.beside ht hmove⟩
  | false =>
      obtain ⟨session, ctx, path, heq⟩ := (hmove.streams n).eq_of_started hstarted hstarted'
      refine ⟨?_, ?_⟩
      · rw [heq]
        exact ⟨rfl, rfl⟩
      · constructor <;> rw [heq]
        exact fun _ ↦ trivial

theorem transfer_triple (a : Adapter) (n : StreamId) :
    (protocol calls).Triple (.transfer n) (transfer a n) (Waiting n) fun _ _ ↦ True := by
  refine Protocol.Triple.bind (K := fun _ s ↦ Pipe.Idle [] (s.streams n).pipe ∧ Owned n True [] s)
    (command (.transfer n) (.beginTransfer n) (fun _ _ _ ↦ trivial) ?_ ?_) ?_
  · refine fun _ ↦ stable_of_move fun t' ht s s' _ hmove ⟨hidle, hx⟩ ↦ ?_
    have hb := (hmove.streams n).besideTransfer ht hx.started
    exact ⟨hb.pipe.idle hidle, hx.beside ht hmove⟩
  · intro s r s' _ hl happly
    obtain ⟨⟨hstarted, -⟩, rfl⟩ := of_ite_some happly
    exact hl hstarted
  rintro ⟨session, ctx, path⟩
  refine (attempts_triple a n session ctx path).bind fun err ↦ ?_
  refine ((local_attempted n err).ctxErr ctx).bind fun contextErr ↦ ?_
  refine (closeWrite_triple n err contextErr path).bind fun _ ↦ ?_
  refine Protocol.Triple.bind (K := fun _ ↦ Finishing n true) (command (.transfer n)
    (.closeDone n) ?_ (fun _ ↦ stable_finishing n true) ?_) fun _ ↦ ?_
  · exact fun s _ hl ↦ ⟨rfl, hl.started, hl.werr⟩
  · intro s _ s' _ hl happly
    cases happly
    refine ⟨hl.opMu, ?_, ?_, ?_⟩ <;> rw [streams_modifyStream_self]
    · exact hl.started
    · exact hl.werr
  · refine command (.transfer n) .opUnlock ?_ (fun _ ↦ Protocol.stable_fact _) ?_
    · exact fun s _ hl ↦ ⟨hl.opMu, hl.started, hl.done⟩
    · exact fun _ _ _ _ _ _ ↦ trivial

/-! ## All of them together -/

def Returned (calls : Nat → Call) : (t : Tid) → Returns t → State → Prop
  | .call m, outcome, s => ∀ n data, calls m = .read n →
      outcome = .read data (some (.sentinel .eof)) → Delivered n s
  | _, _, _ => True

theorem call_triple (a : Adapter) (m : Nat) :
    (protocol calls).Triple (.call m) ((calls m).run a m) (Fresh m) (Returned calls (.call m)) := by
  cases hm : calls m with
  | read n =>
      refine ((read_triple m n).pre fun _ _ _ ↦ trivial).bind ?_
      rintro ⟨data, err⟩
      refine .ret fun s _ hl n' data' hn' heq ↦ ?_
      cases hm.symm.trans hn'
      exact hl (Outcome.read.inj heq).2
  | closeStream n =>
      refine ((closeStream_triple m n hm).pre fun _ _ _ ↦ trivial).bind ?_
      exact fun _ ↦ .ret fun _ _ _ _ _ hn' ↦ nomatch hm.symm.trans hn'
  | openStream ctx path =>
      refine (openStream_triple m ctx path).bind ?_
      exact fun _ ↦ .ret fun _ _ _ _ _ hn' ↦ nomatch hm.symm.trans hn'
  | write ctx path source options =>
      refine (write_triple m ctx path source options).bind ?_
      exact fun _ ↦ .ret fun _ _ _ _ _ hn' ↦ nomatch hm.symm.trans hn'
  | delete ctx path =>
      refine (delete_triple m ctx path).bind ?_
      exact fun _ ↦ .ret fun _ _ _ _ _ hn' ↦ nomatch hm.symm.trans hn'
  | stat ctx path =>
      refine (stat_triple m ctx path).bind ?_
      exact fun _ ↦ .ret fun _ _ _ _ _ hn' ↦ nomatch hm.symm.trans hn'
  | list ctx directory options =>
      refine (list_triple m ctx directory options).bind ?_
      exact fun _ ↦ .ret fun _ _ _ _ _ hn' ↦ nomatch hm.symm.trans hn'
  | close =>
      refine (close_triple m hm).bind ?_
      exact fun _ ↦ .ret fun _ _ _ _ _ hn' ↦ nomatch hm.symm.trans hn'
  | cancel ctx err =>
      refine ((local_fresh m).quiet (.cancel ctx err) trivial fun _ _ _ ↦ trivial).bind ?_
      exact fun _ ↦ .ret fun _ _ _ _ _ hn' ↦ nomatch hm.symm.trans hn'

theorem verified_start (a : Adapter) (calls : Nat → Call) :
    Verified (protocol calls) (Returned calls) (start a calls) where
  inv n := ⟨fun _ ↦ rfl, nofun, nofun, fun h ↦ absurd rfl h, nofun⟩
  threads t := by
    cases t with
    | call m => exact ⟨_, (local_fresh m).stable, rfl, call_triple a m⟩
    | transfer n => exact ⟨_, stable_waiting n, nofun, transfer_triple a n⟩
    | watch n => exact ⟨_, Protocol.stable_fact _, trivial, watchCancellation_triple n⟩

end GoFilesystem.Ftp
