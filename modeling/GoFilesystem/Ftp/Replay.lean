import GoFilesystem.Ftp.Transfers
import GoFilesystem.Remote.Sessions

/-!
# Replaying a transfer

`readStream.transfer` may call `Retrieve` a second time.  What it knows then is
`wroteAny`, which a `countingWriter` keeps from the counts that the writes to the
pipe returned.  `transferUsage` is the order in which the transfer calls `Retrieve` and
writes to the pipe, with `wroteAny` computed from the answers, and `Holds` relates
each point of it to the stream: what the caller has received is a beginning of what
the latest `Retrieve` wrote.

| point | the transfer | received |
| --- | --- | --- |
| `idle` | is in no write | everything, unless the pipe is closed |
| `due` | is about to enter a write | everything before these bytes, or less |
| `entered` | has found the pipe open | everything before these bytes |
| `offered` | waits for a reader | some of these bytes as well |
-/

namespace GoFilesystem.Ftp.Replay

open Go Conc

/-! ## The order of writes -/

/-- Where a transfer is with the write of some bytes. -/
inductive Writing where
  | idle
  | due (bytes : Str)
  | entered (bytes : Str)
  | offered (bytes : Str)

/-- Where a transfer is: the number of its attempts, whether a write has returned
that a byte was taken, and the present write. -/
structure Phase where
  attempts : Nat := 0
  wroteAny : Bool := false
  writing : Writing := .idle

/-- What a step of `Retrieve` has to write. -/
def Writing.next : Retrieval → Writing
  | .write bytes => .due bytes
  | .done _ => .idle

/-- Commands of a transfer other than `Retrieve` and its writes. -/
def beside : Cmd → Bool
  | .retrieve _ _ | .retrieving _ | .start _ _ _ _ => false
  | .pipe _ (.closeWrite _) => true
  | .pipe _ _ => false
  | _ => true

def Beside (c : Cmd) : Prop := beside c = true

/-- The order of the commands of a transfer.  Other goroutines are at no point of it. -/
inductive Phase.Next : (c : Cmd) → c.Resp → Option Phase → Option Phase → Prop
  | free (c r) : Next c r none none
  | beside {c r} (ph) (h : Beside c) : Next c r (some ph) (some ph)
  | retrieve {session name r k any} (h : k = 0 ∨ k = 1 ∧ any = false) :
      Next (.retrieve session name) r (some ⟨k, any, .idle⟩) (some ⟨k + 1, false, .idle⟩)
  | write {session bytes k any} : Next (.retrieving session) (.write bytes)
      (some ⟨k + 1, any, .idle⟩) (some ⟨k + 1, any, .due bytes⟩)
  | done {session err k any} : Next (.retrieving session) (.done err)
      (some ⟨k + 1, any, .idle⟩) (some ⟨k + 1, any, .idle⟩)
  | refused {n err bytes k any} : Next (.pipe n .enterWrite) (some err)
      (some ⟨k, any, .due bytes⟩) (some ⟨k, any, .idle⟩)
  | enter {n bytes k any} : Next (.pipe n .enterWrite) none
      (some ⟨k, any, .due bytes⟩) (some ⟨k, any, .entered bytes⟩)
  | offer {n r bytes k any} : Next (.pipe n (.offer bytes)) r
      (some ⟨k, any, .entered bytes⟩) (some ⟨k, any, .offered bytes⟩)
  | fail {n err bytes k any} : Next (.pipe n .await) (.error err)
      (some ⟨k, any, .offered bytes⟩) (some ⟨k, any, .idle⟩)
  | take {n count bytes k any} : Next (.pipe n .await) (.ok count)
      (some ⟨k, any, .offered bytes⟩) (some ⟨k, any || 0 < count,
        if bytes.drop count = [] then .idle else .entered (bytes.drop count)⟩)

abbrev transferUsage : Usage sig := ⟨Option Phase, Phase.Next⟩

section Follows

variable {n : StreamId} {k : Nat} {any : Bool}

/-- `PipeWriter.Write`: `wroteAny` is set if the count is positive. -/
theorem follows_write (bytes : Str) :
    transferUsage.Follows (Pipe.write (fun c ↦ perform (.pipe n c)) bytes)
      (some ⟨k, any, .due bytes⟩) fun r y ↦ y = some ⟨k, any || 0 < r.1, .idle⟩ := by
  have henter : transferUsage.Follows (perform (.pipe n .enterWrite)) (some ⟨k, any, .due bytes⟩)
      fun (r : Option Err) y ↦
        y = some ⟨k, any, if r = none then .entered bytes else .idle⟩ := by
    refine .command ?_
    rintro (_ | err)
    · exact ⟨_, .enter, rfl⟩
    · exact ⟨_, .refused, rfl⟩
  refine henter.bind ?_
  rintro (_ | err) _ rfl
  · refine Usage.Follows.loop (fun i y ↦ y = some ⟨k, any || 0 < i.2, .entered i.1⟩) ?_ ?_
    · exact congrArg (fun b ↦ some (Phase.mk k b _)) (Bool.or_false any).symm
    rintro ⟨rest, count⟩ _ rfl
    have hoffer : transferUsage.Follows (perform (.pipe n (.offer rest)))
        (some ⟨k, any || 0 < count, .entered rest⟩)
        fun _ y ↦ y = some ⟨k, any || 0 < count, .offered rest⟩ :=
      .command fun _ ↦ ⟨_, .offer, rfl⟩
    refine hoffer.bind ?_
    rintro _ _ rfl
    have hawait : transferUsage.Follows (perform (.pipe n .await))
        (some ⟨k, any || 0 < count, .offered rest⟩) fun (r : Except Err Nat) y ↦
          y = some (r.toOption.elim ⟨k, any || 0 < count, .idle⟩ fun taken ↦
            ⟨k, any || 0 < count + taken,
              if rest.drop taken = [] then .idle else .entered (rest.drop taken)⟩) := by
      refine .command ?_
      rintro (err | taken)
      · exact ⟨_, .fail, rfl⟩
      · have hany : (any || decide (0 < count) || decide (0 < taken)) =
            (any || decide (0 < count + taken)) := by
          simp only [Bool.or_assoc, ← Bool.decide_or, Nat.add_pos_iff_pos_or_pos]
        exact ⟨_, .take, congrArg (fun b ↦ some (Phase.mk k b _)) hany⟩
    refine hawait.bind ?_
    rintro (err | taken) _ rfl
    · exact Usage.Follows.ret rfl
    · dsimp only [Except.toOption, Option.elim]
      split
      · exact Usage.Follows.ret rfl
      · exact Usage.Follows.ret rfl
  · exact Usage.Follows.ret (congrArg (fun b ↦ some (Phase.mk k b _)) (Bool.or_false any).symm)

/-- `Retrieve` into a `countingWriter`. -/
theorem follows_retrieve (session : Session) (name : Str) (h : k = 0 ∨ k = 1 ∧ any = false) :
    transferUsage.Follows (retrieve n session name false) (some ⟨k, any, .idle⟩)
      fun r y ↦ y = some ⟨k + 1, r.2, .idle⟩ := by
  have hretrieve : transferUsage.Follows (perform (.retrieve session name))
      (some ⟨k, any, .idle⟩) fun _ y ↦ y = some ⟨k + 1, false, .idle⟩ :=
    .command fun _ ↦ ⟨_, .retrieve h, rfl⟩
  refine hretrieve.bind ?_
  rintro _ _ rfl
  refine Usage.Follows.loop (fun any y ↦ y = some ⟨k + 1, any, .idle⟩) rfl ?_
  rintro any _ rfl
  have hretrieving : transferUsage.Follows (perform (.retrieving session))
      (some ⟨k + 1, any, .idle⟩) fun r y ↦ y = some ⟨k + 1, any, .next r⟩ := by
    refine .command ?_
    rintro (bytes | err)
    · exact ⟨_, .write, rfl⟩
    · exact ⟨_, .done, rfl⟩
  refine hretrieving.bind ?_
  rintro (bytes | err) _ rfl
  · refine (follows_write bytes).bind ?_
    rintro ⟨written, err⟩ _ rfl
    exact Usage.Follows.ret rfl
  · exact Usage.Follows.ret rfl

theorem within_beside {c : Cmd} (h : beside c = true) : (perform c).Within Beside := .command h

theorem beside_of_upkeep {c : Remote.Cmd} (h : c.upkeep = true) : Beside (client.cmd c) := by
  cases c with
  | lstat | stat => contradiction
  | _ => rfl

theorem invalidate_beside (session : Session) : (invalidate session).Within Beside :=
  client.invalidate_within (fun _ ↦ beside_of_upkeep) session

theorem currentSession_beside (ctx : Ctx) : (currentSession ctx).Within Beside :=
  client.currentSession_within (fun _ ↦ beside_of_upkeep) ctx

theorem follows_beside {α : Type} {p : Prog sig α} (h : p.Within Beside) (ph : Phase) :
    transferUsage.Follows p (some ph) fun _ y ↦ y = some ph :=
  .of_within h fun _ _ hc ↦ .beside ph hc

/-- The second attempt follows one after which `wroteAny` is not set. -/
theorem follows_attempts (a : Adapter) (session : Session) (ctx : Ctx) (path : Path) :
    transferUsage.Follows (attempts a n session ctx path) (some {})
      fun _ y ↦ ∃ ph, y = some ph := by
  refine (follows_retrieve session _ (.inl rfl)).bind ?_
  rintro ⟨_ | err, wroteAny⟩ _ rfl
  · exact Usage.Follows.ret ⟨_, rfl⟩
  · dsimp only
    split
    · next hretry =>
        obtain rfl : wroteAny = false := by simpa using (Bool.and_eq_true_iff.mp hretry).2
        refine (follows_beside (within_beside rfl) _).bind ?_
        rintro (_ | _) _ rfl
        · refine (follows_beside (invalidate_beside session) _).bind ?_
          rintro _ _ rfl
          refine (follows_beside (currentSession_beside ctx) _).bind ?_
          rintro (reconnectErr | reconnected) _ rfl
          · exact Usage.Follows.ret ⟨_, rfl⟩
          · refine (follows_retrieve reconnected _ (.inr ⟨rfl, rfl⟩)).bind ?_
            rintro _ _ rfl
            exact Usage.Follows.ret ⟨_, rfl⟩
        · exact Usage.Follows.ret ⟨_, rfl⟩
    · exact Usage.Follows.ret ⟨_, rfl⟩

theorem follows_transfer (a : Adapter) (n : StreamId) :
    transferUsage.Follows (transfer a n) (some {}) fun _ _ ↦ True := by
  refine (follows_beside (within_beside rfl) _).bind ?_
  rintro ⟨session, ctx, path⟩ _ rfl
  refine (follows_attempts a session ctx path).bind ?_
  rintro err _ ⟨ph, rfl⟩
  refine (follows_beside ?_ ph).mono fun _ _ _ ↦ trivial
  refine (within_beside rfl).bind fun _ ↦ (within_beside rfl).bind fun _ ↦ ?_
  exact (within_beside rfl).bind fun _ ↦ within_beside rfl

end Follows

/-- At the start every transfer is before its first attempt. -/
theorem conforms_start (a : Adapter) (calls : Nat → Call) :
    Conforms transferUsage (fun _ _ _ ↦ True) (start a calls) fun
      | .transfer _ => some {}
      | _ => none := by
  have hfree {α : Type} (p : Prog sig α) : transferUsage.Follows p none fun _ _ ↦ True := by
    have hwithin : p.Within fun _ ↦ True := Prog.within_true p
    exact (Usage.Follows.of_within hwithin fun c r _ ↦ Phase.Next.free c r).mono fun _ _ _ ↦ trivial
  intro t
  cases t with
  | transfer n => exact follows_transfer a n
  | call m => exact hfree _
  | watch n => exact hfree _

/-! ## What the caller has received -/

/-- What the latest `Retrieve` wrote. -/
def written (x : Stream) : Str := (x.attempts.head?.map Attempt.bytes).getD []

/-- What was sent is all of `bytes`, or a beginning of them because the pipe is
closed. -/
def Reached (p : Pipe.State UInt8 Err) (sent bytes : Str) : Prop :=
  sent = bytes ∨ p.done = true ∧ sent <+: bytes

/-- What is known of a stream while its transfer is at a point of its order. -/
structure Holds (ph : Phase) (x : Stream) : Prop where
  length_eq : x.attempts.length = ph.attempts
  le_two : ph.attempts ≤ 2
  sent : ∃ sent, (ph.wroteAny = false → sent = []) ∧
    match ph.writing with
    | .idle => Pipe.Idle sent x.pipe ∧ Reached x.pipe sent (written x)
    | .due bytes => Pipe.Idle sent x.pipe ∧
        ∃ before, written x = before ++ bytes ∧ Reached x.pipe sent before
    | .entered bytes => Pipe.Idle sent x.pipe ∧ written x = sent ++ bytes
    | .offered bytes => Pipe.Offering sent bytes x.pipe ∧ written x = sent ++ bytes

section Steps

variable {calls : Nat → Call} {t : Tid} {n : StreamId} {ph : Phase} {x y : Stream} {s s' : State}
  {p p' : Pipe.State UInt8 Err} {sent bytes : Str}

theorem Reached.foreign (h : Reached p sent bytes) (hp : Pipe.Foreign p p') :
    Reached p' sent bytes :=
  h.imp_right fun hdone ↦ ⟨hp.done hdone.1, hdone.2⟩

/-- What everyone but the transfer does to a stream. -/
structure Undisturbed (x y : Stream) : Prop where
  attempts : y.attempts = x.attempts
  pipe : Pipe.Foreign x.pipe y.pipe

theorem Holds.undisturbed (h : Holds ph x) (hxy : Undisturbed x y) : Holds ph y := by
  obtain ⟨k, any, writing⟩ := ph
  obtain ⟨hlength, hle, sent, hany, hsent⟩ := h
  have hwritten : written y = written x := by rw [written, written, hxy.attempts]
  refine ⟨hxy.attempts ▸ hlength, hle, sent, hany, ?_⟩
  cases writing with
  | idle => exact ⟨hxy.pipe.idle hsent.1, hwritten ▸ hsent.2.foreign hxy.pipe⟩
  | due bytes =>
      obtain ⟨hidle, before, hbefore, hreached⟩ := hsent
      exact ⟨hxy.pipe.idle hidle, before, hwritten.trans hbefore, hreached.foreign hxy.pipe⟩
  | entered bytes => exact ⟨hxy.pipe.idle hsent.1, hwritten.trans hsent.2⟩
  | offered bytes => exact ⟨hxy.pipe.offering hsent.1, hwritten.trans hsent.2⟩

/-- What the caller has received is a beginning of what was written. -/
theorem Holds.received (h : Holds ph x) : x.pipe.transferred <+: written x := by
  obtain ⟨k, any, writing⟩ := ph
  obtain ⟨-, -, sent, -, hsent⟩ := h
  have hreached {before : Str} (hr : Reached x.pipe sent before) : sent <+: before :=
    hr.elim (fun heq ↦ heq ▸ List.prefix_rfl) And.right
  cases writing with
  | idle => exact hsent.1.2 ▸ hreached hsent.2
  | due bytes =>
      obtain ⟨hidle, before, hbefore, hr⟩ := hsent
      rw [hidle.2, hbefore]
      exact (hreached hr).trans (List.prefix_append before bytes)
  | entered bytes =>
      rw [hsent.1.2, hsent.2]
      exact List.prefix_append sent bytes
  | offered bytes =>
      obtain ⟨hoffering, hbytes⟩ := hsent
      rw [hbytes]
      rcases hoffering with ⟨-, htransferred⟩ | ⟨count, -, -, htransferred⟩
      · exact htransferred ▸ List.prefix_append sent bytes
      · rw [htransferred]
        exact List.prefix_append_right_inj sent |>.mpr (List.take_prefix count bytes)

/-- A step of another goroutine. -/
theorem undisturbed_of_move (hs : Inv s) (hmove : Move t s s') (ht : t ≠ .transfer n) :
    Undisturbed (s.streams n) (s'.streams n) := by
  have hstream := hmove.streams n
  have hunused := (hs n).unused
  refine ⟨?_, hstream.foreign ht hunused⟩
  generalize s.streams n = x, s'.streams n = y at hstream hunused
  cases hstream with
  | start ht' hfresh => rw [hunused hfresh]
  | write ht' | attempt ht' | closeDone ht' => exact absurd ht' ht
  | _ => rfl

/-- A step of the transfer itself, other than `Retrieve` and its writes. -/
theorem undisturbed_of_beside {cmd : Cmd} {r : cmd.Resp} (hcmd : Beside cmd)
    (h : apply t cmd r s = some s') : Undisturbed (s.streams n) (s'.streams n) := by
  have hmodify {m : StreamId} {f : Stream → Stream}
      (hf : Undisturbed (s.streams m) (f (s.streams m))) :
      Undisturbed (s.streams n) ((s.modifyStream m f).streams n) := by
    by_cases hm : n = m
    · subst hm
      rw [streams_modifyStream_self]
      exact hf
    · rw [streams_modifyStream_of_ne s hm]
      exact ⟨rfl, .same _⟩
  by_cases hquiet : Quiet cmd
  · obtain ⟨-, -, hstreams⟩ := apply_quiet hquiet h
    rw [hstreams]
    exact ⟨rfl, .same _⟩
  cases cmd with
  | opLock =>
      obtain ⟨-, rfl⟩ := of_ite_some h
      exact ⟨rfl, .same _⟩
  | opUnlock =>
      obtain ⟨-, rfl⟩ := of_ite_some h
      exact ⟨rfl, .same _⟩
  | lock =>
      obtain ⟨-, rfl⟩ := of_ite_some h
      exact ⟨rfl, .same _⟩
  | unlock =>
      obtain ⟨-, rfl⟩ := of_ite_some h
      exact ⟨rfl, .same _⟩
  | select m ctx =>
      rcases apply_select h with ⟨-, rfl⟩ | ⟨-, rfl⟩
      · exact hmodify ⟨rfl, .same _⟩
      · exact hmodify ⟨rfl, .same _⟩
  | endSelect m | onceDone m | closeDone m =>
      cases h
      exact hmodify ⟨rfl, .same _⟩
  | onceDo m =>
      rcases apply_onceDo h with ⟨-, -, rfl⟩ | ⟨-, rfl⟩
      · exact hmodify ⟨rfl, .same _⟩
      · exact ⟨rfl, .same _⟩
  | pipe m c =>
      cases c with
      | closeWrite err =>
          obtain ⟨p, hp, rfl⟩ := apply_pipe h
          cases hp
          exact hmodify ⟨rfl, .closeWrite _ _⟩
      | _ => nomatch hcmd
  | start | retrieve | retrieving => nomatch hcmd
  | _ => exact absurd trivial hquiet

/-- A new `Retrieve`: nothing was received, and nothing is written yet. -/
theorem Holds.retrieve {k : Nat} {any : Bool} (h : Holds ⟨k, any, .idle⟩ x)
    (hk : k = 0 ∨ k = 1 ∧ any = false) :
    x.pipe.transferred = [] ∧
      Holds ⟨k + 1, false, .idle⟩ { x with attempts := {} :: x.attempts } := by
  obtain ⟨hlength, hle, sent, hany, hidle, hreached⟩ := h
  obtain rfl : sent = [] := by
    rcases hk with rfl | ⟨-, rfl⟩
    · have hwritten : written x = [] := by rw [written, List.length_eq_zero_iff.mp hlength]; rfl
      rw [hwritten] at hreached
      exact hreached.elim id fun hdone ↦ List.prefix_nil.mp hdone.2
    · exact hany rfl
  refine ⟨hidle.2, congrArg (· + 1) hlength, ?_, [], fun _ ↦ rfl, hidle, .inl rfl⟩
  change k + 1 ≤ 2
  omega

/-- `Retrieve` goes on. -/
theorem Holds.retrieving {k : Nat} {any : Bool} (h : Holds ⟨k + 1, any, .idle⟩ x)
    (step : Retrieval) :
    Holds ⟨k + 1, any, .next step⟩ { x with attempts := advanceAttempt step x.attempts } := by
  obtain ⟨hlength, hle, sent, hany, hidle, hreached⟩ := h
  obtain ⟨latest, earlier, hattempts⟩ := List.exists_cons_of_length_eq_add_one hlength
  unfold written at hreached
  rw [hattempts] at hlength hreached ⊢
  cases step with
  | write bytes => exact ⟨hlength, hle, sent, hany, hidle, latest.bytes, rfl, hreached⟩
  | done err => exact ⟨hlength, hle, sent, hany, hidle, hreached⟩

/-- The steps of a write. -/
theorem Holds.enterWrite {k : Nat} {any : Bool} {r : Option Err}
    (h : Holds ⟨k, any, .due bytes⟩ x) (hp : Pipe.apply .enterWrite r x.pipe = some p) :
    Holds ⟨k, any, if r = none then .entered bytes else .idle⟩ { x with pipe := p } := by
  obtain ⟨hlength, hle, sent, hany, hidle, before, hbefore, hreached⟩ := h
  obtain ⟨rfl, hr⟩ := Pipe.apply_enterWrite hp
  refine ⟨hlength, hle, sent, hany, ?_⟩
  cases hdone : x.pipe.done with
  | true =>
      rw [hdone, if_pos rfl] at hr
      rw [hr]
      refine ⟨hidle, .inr ⟨hdone, ?_⟩⟩
      change sent <+: written x
      rw [hbefore]
      have hsent : sent <+: before := hreached.elim (fun heq ↦ heq ▸ List.prefix_rfl) And.right
      exact hsent.trans (List.prefix_append before bytes)
  | false =>
      rw [hdone, if_neg Bool.false_ne_true] at hr
      obtain rfl : sent = before := hreached.resolve_right fun h ↦ nomatch hdone.symm.trans h.1
      rw [hr]
      exact ⟨hidle, hbefore⟩

theorem Holds.offer {k : Nat} {any : Bool} (h : Holds ⟨k, any, .entered bytes⟩ x)
    (hp : Pipe.apply (.offer bytes) () x.pipe = some p) :
    Holds ⟨k, any, .offered bytes⟩ { x with pipe := p } := by
  obtain ⟨hlength, hle, sent, hany, hidle, hbytes⟩ := h
  obtain ⟨-, rfl⟩ := Pipe.apply_offer hp
  exact ⟨hlength, hle, sent, hany, .inl ⟨rfl, hidle.2⟩, hbytes⟩

theorem Holds.await_error {k : Nat} {any : Bool} {err : Err}
    (h : Holds ⟨k, any, .offered bytes⟩ x) (hp : Pipe.apply .await (.error err) x.pipe = some p) :
    Holds ⟨k, any, .idle⟩ { x with pipe := p } := by
  obtain ⟨hlength, hle, sent, hany, hoffering, hbytes⟩ := h
  obtain ⟨_, hpending, hdone, -, rfl⟩ := Pipe.apply_await_error hp
  rcases hoffering with ⟨-, hsent⟩ | ⟨_, -, htaken, -⟩
  · refine ⟨hlength, hle, sent, hany, ⟨rfl, hsent⟩, .inr ⟨hdone, ?_⟩⟩
    change sent <+: written x
    exact hbytes ▸ List.prefix_append sent bytes
  · exact nomatch htaken.symm.trans hpending

theorem Holds.await_ok {k count : Nat} {any : Bool} (h : Holds ⟨k, any, .offered bytes⟩ x)
    (hp : Pipe.apply .await (.ok count) x.pipe = some p) :
    Holds ⟨k, any || 0 < count,
      if bytes.drop count = [] then .idle else .entered (bytes.drop count)⟩
      { x with pipe := p } := by
  obtain ⟨hlength, hle, sent, hany, hoffering, hbytes⟩ := h
  obtain ⟨htaken, rfl⟩ := Pipe.apply_await_ok hp
  rcases hoffering with ⟨hpending, -⟩ | ⟨count', -, htaken', hsent⟩
  · exact nomatch htaken.symm.trans hpending
  · obtain rfl := Pipe.Offer.taken.inj (htaken'.symm.trans htaken)
    have hsplit : written x = sent ++ bytes.take count' ++ bytes.drop count' := by
      rw [List.append_assoc, List.take_append_drop, hbytes]
    have hnone : (any || decide (0 < count')) = false → sent ++ bytes.take count' = [] := by
      intro hfalse
      obtain ⟨hnone, hzero⟩ := Bool.or_eq_false_iff.mp hfalse
      obtain rfl : count' = 0 := Nat.eq_zero_of_not_pos (of_decide_eq_false hzero)
      rw [hany hnone]
      rfl
    by_cases hdrop : bytes.drop count' = []
    · rw [hdrop, List.append_nil] at hsplit
      rw [if_pos hdrop]
      exact ⟨hlength, hle, _, hnone, ⟨rfl, hsent⟩, .inl hsplit.symm⟩
    · rw [if_neg hdrop]
      exact ⟨hlength, hle, _, hnone, ⟨rfl, hsent⟩, hsplit⟩

/-- A step of the transfer of a stream. -/
theorem Holds.step {cmd : Cmd} {r : cmd.Resp} {z : Option Phase} (h : Holds ph (s.streams n))
    (hnext : Phase.Next cmd r (some ph) z) (hcmd : Permitted calls (.transfer n) s cmd)
    (happly : apply (.transfer n) cmd r s = some s') :
    ∃ ph', z = some ph' ∧ Holds ph' (s'.streams n) := by
  -- a write is to the pipe of the stream itself
  have hpipe {m : StreamId} {c : Pipe.Cmd UInt8 Err} {r : c.Resp}
      (hm : Tid.transfer n = .transfer m)
      (happly : apply (.transfer n) (.pipe m c) r s = some s') :
      ∃ p, Pipe.apply c r (s.streams n).pipe = some p ∧
        s'.streams n = { s.streams n with pipe := p } := by
    cases hm
    obtain ⟨p, hpipe, rfl⟩ := apply_pipe happly
    exact ⟨p, hpipe, streams_modifyStream_self ..⟩
  cases hnext with
  | beside _ hbeside => exact ⟨_, rfl, h.undisturbed (undisturbed_of_beside hbeside happly)⟩
  | retrieve hk =>
      cases happly
      refine ⟨_, rfl, ?_⟩
      rw [show (Tid.transfer n).owner = n from rfl, streams_modifyStream_self]
      exact (h.retrieve hk).2
  | @write session bytes k any =>
      cases happly
      refine ⟨_, rfl, ?_⟩
      rw [show (Tid.transfer n).owner = n from rfl, streams_modifyStream_self]
      exact h.retrieving (.write bytes)
  | @done session err k any =>
      cases happly
      refine ⟨_, rfl, ?_⟩
      rw [show (Tid.transfer n).owner = n from rfl, streams_modifyStream_self]
      exact h.retrieving (.done err)
  | refused =>
      obtain ⟨p, hp, heq⟩ := hpipe hcmd.2.1 happly
      exact ⟨_, rfl, heq ▸ h.enterWrite hp⟩
  | enter =>
      obtain ⟨p, hp, heq⟩ := hpipe hcmd.2.1 happly
      exact ⟨_, rfl, heq ▸ h.enterWrite hp⟩
  | offer =>
      obtain ⟨p, hp, heq⟩ := hpipe hcmd.2.1 happly
      exact ⟨_, rfl, heq ▸ h.offer hp⟩
  | fail =>
      obtain ⟨p, hp, heq⟩ := hpipe hcmd.2.1 happly
      exact ⟨_, rfl, heq ▸ h.await_error hp⟩
  | take =>
      obtain ⟨p, hp, heq⟩ := hpipe hcmd.2.1 happly
      exact ⟨_, rfl, heq ▸ h.await_ok hp⟩

end Steps

/-! ## Every run -/

variable {a : Adapter} {calls : Nat → Call} {trace : List (Label sig Tid)}
  {c c' : Config sig State Returns} {n : StreamId}

/-- Every transfer is somewhere in its order, and its stream is as it has to be there. -/
structure Tracked (c : Config sig State Returns) (x : Tid → Option Phase) : Prop where
  conforms : Conforms transferUsage (fun _ _ _ ↦ True) c x
  holds : ∀ n, ∃ ph, x (.transfer n) = some ph ∧ Holds ph (c.state.streams n)

theorem Tracked.step {x : Tid → Option Phase} {l : Label sig Tid} (h : Tracked c x)
    (hverified : Verified (protocol calls) (Returned calls) c) (hstep : Step machine c l c') :
    ∃ x', Tracked c' x' := by
  obtain ⟨x', hconforms, hmoves⟩ := h.conforms.step hstep
  have hkeeps := (hverified.step hstep).2
  refine ⟨x', hconforms, fun n ↦ ?_⟩
  obtain ⟨ph, hph, hholds⟩ := h.holds n
  cases l with
  | silent t =>
      obtain ⟨hstate, rfl⟩ := hmoves
      exact ⟨ph, hph, hstate ▸ hholds⟩
  | call t cmd r =>
      obtain ⟨happly, y, hnext, rfl⟩ := hmoves
      obtain ⟨hpermitted, -⟩ : (protocol calls).Guar t cmd r c.state c'.state := hkeeps
      by_cases ht : t = .transfer n
      · subst ht
        rw [hph] at hnext
        obtain ⟨ph', rfl, hholds'⟩ := hholds.step hnext hpermitted happly
        exact ⟨ph', Function.update_self .., hholds'⟩
      · refine ⟨ph, (Function.update_of_ne (Ne.symm ht) ..).trans hph, ?_⟩
        exact hholds.undisturbed
          (undisturbed_of_move hverified.inv (move hpermitted happly) ht)

theorem tracked_of_run (hrun : Run machine (start a calls) trace c) : ∃ x, Tracked c x := by
  induction hrun with
  | refl =>
      refine ⟨_, conforms_start a calls, fun n ↦ ⟨{}, rfl, ?_⟩⟩
      exact ⟨rfl, by decide, [], fun _ ↦ rfl, ⟨rfl, rfl⟩, .inl rfl⟩
  | snoc hrun hstep ih =>
      obtain ⟨x, hx⟩ := ih
      exact hx.step ((verified_start a calls).run hrun) hstep

/-- In every run, whatever the server, the readers and the contexts do: what the
caller has received from a stream is a beginning of what the latest `Retrieve` wrote,
there are at most two, and the second begins before the caller has received a byte. -/
theorem replay_never_mixes (hrun : Run machine (start a calls) trace c) (n : StreamId) :
    (c.state.streams n).attempts.length ≤ 2 ∧
    ((c.state.streams n).attempts = [] → (c.state.streams n).pipe.transferred = []) ∧
    (∀ latest earlier, (c.state.streams n).attempts = latest :: earlier →
      (c.state.streams n).pipe.transferred <+: latest.bytes) ∧
    ∀ t session name r c', Step machine c (.call t (.retrieve session name) r) c' → t.owner = n →
      (c.state.streams n).attempts.length ≤ 1 ∧ (c.state.streams n).pipe.transferred = [] := by
  obtain ⟨x, htracked⟩ := tracked_of_run hrun
  obtain ⟨ph, hph, hholds⟩ := htracked.holds n
  have hreceived := hholds.received
  refine ⟨hholds.length_eq ▸ hholds.le_two, fun hnil ↦ ?_, fun latest earlier hcons ↦ ?_, ?_⟩
  · rw [written, hnil] at hreceived
    exact List.prefix_nil.mp hreceived
  · rw [written, hcons] at hreceived
    exact hreceived
  · intro t session name r c' hstep hn
    have hverified := (verified_start a calls).run hrun
    obtain ⟨hpermitted, -⟩ : (protocol calls).Guar t (.retrieve session name) r c.state c'.state :=
      (hverified.step hstep).2
    obtain ⟨x', -, -, y, hnext, -⟩ := htracked.conforms.step hstep
    obtain rfl : t = .transfer n := hn ▸ hpermitted.2.1
    rw [hph] at hnext
    cases hnext with
    | beside _ hbeside => nomatch hbeside
    | @retrieve _ _ _ k any hk =>
        refine ⟨?_, (hholds.retrieve hk).1⟩
        rw [hholds.length_eq]
        change k ≤ 1
        omega

/-- A `Retrieve` that loses its connection at once, and another one that writes a
byte. -/
def retrieveAgain : List Attempt → Retrieval
  | [⟨[], none⟩] => .done (some (.sentinel .unexpectedEOF))
  | ⟨[], none⟩ :: _ => .write (.lit "x")
  | _ => .done none

/-- A read that gets its byte from the second attempt. -/
theorem openAndRead_again :
    ∃ trace c latest earlier, Run machine (start ⟨.lit "/", 10⟩ openAndRead) trace c ∧
      (c.state.streams 0).attempts = [latest, earlier] ∧
      (c.state.streams 0).pipe.transferred = Str.lit "x" ∧ Str.lit "x" <+: latest.bytes := by
  obtain ⟨trace, c, latest, earlier, hexec, hattempts, hreceived⟩ : ∃ trace c latest earlier,
      machine.exec (fun _ _ ↦ True) (answer retrieveAgain)
        (.replicate 10 (.call 0) ++ .replicate 3 (.call 1) ++ .replicate 23 (.transfer 0) ++
          [.call 1]) (start ⟨.lit "/", 10⟩ openAndRead) = some (trace, c) ∧
      (c.state.streams 0).attempts = [latest, earlier] ∧
      (c.state.streams 0).pipe.transferred = Str.lit "x" := ⟨_, _, _, _, rfl, rfl, rfl⟩
  have hrun := (Machine.run_of_exec hexec).run
  obtain ⟨-, -, hlatest, -⟩ := replay_never_mixes hrun 0
  exact ⟨trace, c, latest, earlier, hrun, hattempts, hreceived,
    hreceived ▸ hlatest latest [earlier] hattempts⟩

end GoFilesystem.Ftp.Replay
