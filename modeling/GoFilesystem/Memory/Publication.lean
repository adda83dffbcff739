import GoFilesystem.Memory.Streaming

/-!
# What a streaming writer publishes

Whatever the interleaving of the producer, the consumer, the cancellation of the
context and its callback: a streaming writer stores at most one object, `Close`
returns nil exactly when it did, and the content of that object is what was
written.  `Protocol.Inv` collects why.  The end of the stream is only seen after
`Close` was called, so by then every chunk has been transferred; and the last
look at the context before the critical section keeps a stream that was
cancelled before `Close` from being published.
-/

namespace GoFilesystem.Memory.Streaming

open Go Conc

variable {path : Path} {options : WriteOptions} {s s' : State} {p : Pipe.State UInt8 Err}
  {L : State → Prop} {content : Str}

/-! ## The protocol -/

/-- The commands that each goroutine issues, but for the one that reads
`Writer.err`. -/
def Issues (path : Path) : Tid → Cmd → Prop
  | .producer, .pipe c => c = .enterWrite ∨ c = .await ∨ (∃ bytes, c = .offer bytes) ∨
      c = .closeWrite none
  | .producer, .ctxErr | .producer, .onceDo | .producer, .onceDone _ | .producer, .receive => True
  | .consumer, .pipe c => c = .enterRead ∨ c = .receive
  | .consumer, .publish p _ _ => p = path
  | .consumer, .ctxErr | .consumer, .clock | .consumer, .closeRead _ | .consumer, .send _
  | .consumer, .closeDone | .consumer, .stopCancellation => True
  | .callback, .afterFunc => True
  | .callback, .pipe c => ∃ err : CtxErr, c = .closeWrite (some err.err)
  | .canceller, .cancel _ => True
  | .environment, .outside => True
  | _, _ => False

/-- An object built by `Write` from what went through the pipe. -/
def Streamed (options : WriteOptions) (s : State) (object : Object) : Prop :=
  ∃ visibility now, normalizeVisibility options.visibility = .ok visibility ∧
    object = newObject options visibility s.pipe.transferred now

structure Inv (options : WriteOptions) (s : State) : Prop where
  /-- What was published is what went through the pipe, after `Close` was called
  and unless the context was done before that. -/
  published : s.published = [] ∨ ∃ object, s.published = [object] ∧ Streamed options s object ∧
    s.pipe.werr = some (.sentinel .eof) ∧ s.early = false
  outcome_nil : s.outcome = some none → s.published ≠ []
  outcome_err : ∀ err, s.outcome = some (some err) → s.published = []
  early_ctx : s.early = true → s.ctx ≠ none
  ctx_early : s.ctx ≠ none → s.once = .fresh → s.early = true
  closed : s.pipe.done = true → s.pipe.werr ≠ none ∨ s.outcome ≠ none
  eof : s.pipe.werr = some (.sentinel .eof) → s.once ≠ .fresh
  full : ∀ err, s.done = .full err → s.outcome = some err
  doneClosed : s.doneClosed = true → s.done ≠ .empty
  finished : s.once = .finished → s.outcome = some s.err

/-- The producer reads `Writer.err` after the function under `once.Do` is over. -/
def Loads (t : Tid) (c : Cmd) (s : State) : Prop :=
  t = .producer ∧ c = .loadErr ∧ s.once = .finished

/-- The protocol: each goroutine keeps to its own commands. -/
def protocol (path : Path) (options : WriteOptions) : Protocol machine where
  Inv := Inv options
  Guar t c r s s' := (Issues path t c ∨ Loads t c s) ∧ apply c r s = some s'

/-! ## What the others do to a goroutine -/

/-- What the consumer can count on while others take a step. -/
structure BesideConsumer (s s' : State) : Prop where
  outcome : s'.outcome = s.outcome
  published : s'.published = s.published
  transferred : s'.pipe.transferred = s.pipe.transferred
  doneClosed : s'.doneClosed = s.doneClosed
  done : s'.done = .empty ↔ s.done = .empty
  werr : ∀ err, s.pipe.werr = some err → s'.pipe.werr = some err
  early : s.once ≠ .fresh → s.early = false → s'.early = false

/-- What the producer can count on while others take a step. -/
structure BesideProducer (s s' : State) : Prop where
  pipe : Pipe.Foreign s.pipe s'.pipe
  once : s'.once = s.once
  err : s'.err = s.err
  ctx : s.ctx ≠ none → s'.ctx ≠ none
  done : s.done ≠ .drained → s'.done ≠ .drained
  outcome : ∀ err, s.outcome = some err → s'.outcome = some err
  werr : ∀ err, s.pipe.werr = some err → s'.pipe.werr = some err

theorem BesideConsumer.refl (s : State) : BesideConsumer s s :=
  ⟨rfl, rfl, rfl, rfl, .rfl, fun _ ↦ id, fun _ ↦ id⟩

/-- A step of the pipe that transfers nothing. -/
theorem BesideConsumer.of_pipe (htransferred : p.transferred = s.pipe.transferred)
    (hwerr : ∀ err, s.pipe.werr = some err → p.werr = some err) :
    BesideConsumer s { s with pipe := p } :=
  ⟨rfl, rfl, htransferred, rfl, .rfl, hwerr, fun _ ↦ id⟩

theorem BesideConsumer.closeWrite (s : State) (err : Option Err) :
    BesideConsumer s { s with pipe := s.pipe.closeWrite err } := by
  refine .of_pipe rfl fun err' herr ↦ ?_
  rw [Pipe.State.closeWrite, herr]
  rfl

theorem besideConsumer_of_producer {c : Cmd} {r : c.Resp} (hc : Issues path .producer c)
    (h : apply c r s = some s') : BesideConsumer s s' := by
  cases c with
  | pipe c =>
      obtain ⟨p, hp, rfl⟩ := apply_pipe h
      rcases hc with rfl | rfl | ⟨bytes, rfl⟩ | rfl
      · obtain ⟨rfl, -⟩ := Pipe.apply_enterWrite hp
        exact .refl s
      · rcases r with err | count
        · obtain ⟨-, -, -, -, rfl⟩ := Pipe.apply_await_error hp
          exact .of_pipe rfl fun _ ↦ id
        · obtain ⟨-, rfl⟩ := Pipe.apply_await_ok hp
          exact .of_pipe rfl fun _ ↦ id
      · obtain ⟨-, rfl⟩ := Pipe.apply_offer hp
        exact .of_pipe rfl fun _ ↦ id
      · cases hp
        exact .closeWrite s none
  | ctxErr =>
      obtain ⟨-, rfl⟩ := of_ite_some h
      exact .refl s
  | onceDo =>
      rcases apply_onceDo h with ⟨-, -, rfl⟩ | ⟨-, -, rfl⟩
      · exact ⟨rfl, rfl, rfl, rfl, .rfl, fun _ ↦ id, fun _ ↦ id⟩
      · exact .refl s'
  | onceDone err =>
      cases h
      exact ⟨rfl, rfl, rfl, rfl, .rfl, fun _ ↦ id, fun _ ↦ id⟩
  | receive =>
      rcases apply_receive h with ⟨hfull, rfl⟩ | ⟨-, -, rfl⟩
      · refine ⟨rfl, rfl, rfl, rfl, ?_, fun _ ↦ id, fun _ ↦ id⟩
        simp [hfull]
      · exact .refl s'
  | _ => exact hc.elim

theorem besideConsumer {t : Tid} (ht : t ≠ .consumer) {c : Cmd} {r : c.Resp}
    (hc : Issues path t c) (h : apply c r s = some s') : BesideConsumer s s' := by
  cases t with
  | consumer => contradiction
  | producer => exact besideConsumer_of_producer hc h
  | callback =>
      cases c with
      | pipe c =>
          obtain ⟨err, rfl⟩ := hc
          cases h
          exact .closeWrite s _
      | afterFunc =>
          obtain ⟨-, rfl⟩ := of_ite_some h
          exact .refl s
      | _ => exact hc.elim
  | canceller =>
      cases c with
      | cancel err =>
          rcases apply_cancel h with rfl | ⟨hctx, rfl⟩
          · exact .refl s'
          · refine ⟨rfl, rfl, rfl, rfl, .rfl, fun _ ↦ id, fun honce _ ↦ ?_⟩
            exact decide_eq_false honce
      | _ => exact hc.elim
  | environment =>
      cases c with
      | outside =>
          cases h
          exact ⟨rfl, rfl, rfl, rfl, .rfl, fun _ ↦ id, fun _ ↦ id⟩
      | _ => exact hc.elim

theorem BesideProducer.refl (s : State) : BesideProducer s s :=
  ⟨.same _, rfl, rfl, id, id, fun _ ↦ id, fun _ ↦ id⟩

theorem besideProducer_of_consumer {c : Cmd} {r : c.Resp} (hc : Issues path .consumer c)
    (h : apply c r s = some s') : BesideProducer s s' := by
  cases c with
  | pipe c =>
      obtain ⟨p, hp, rfl⟩ := apply_pipe h
      rcases hc with rfl | rfl
      · obtain ⟨rfl, -⟩ := Pipe.apply_enterRead hp
        exact .refl s
      · rcases r with err | data
        · obtain ⟨rfl, -⟩ := Pipe.apply_receive_error hp
          exact .refl s
        · refine ⟨.receive hp, rfl, rfl, id, id, fun _ ↦ id, ?_⟩
          obtain ⟨-, -, -, rfl⟩ := Pipe.apply_receive_ok hp
          exact fun _ ↦ id
  | ctxErr =>
      obtain ⟨-, rfl⟩ := of_ite_some h
      exact .refl s
  | clock =>
      cases h
      exact .refl s
  | publish path ifNoneMatch stored =>
      obtain ⟨-, rfl⟩ := apply_publish h
      exact ⟨.same _, rfl, rfl, id, id, fun _ ↦ id, fun _ ↦ id⟩
  | closeRead err =>
      cases h
      refine ⟨.closeRead _ _, rfl, rfl, id, id, fun err' herr ↦ ?_, fun _ ↦ id⟩
      dsimp only
      rw [herr]
      rfl
  | send err =>
      obtain ⟨-, rfl⟩ := of_ite_some h
      exact ⟨.same _, rfl, rfl, id, (fun _ hdrained ↦ nomatch hdrained), fun _ ↦ id, fun _ ↦ id⟩
  | closeDone =>
      cases h
      exact ⟨.same _, rfl, rfl, id, id, fun _ ↦ id, fun _ ↦ id⟩
  | stopCancellation =>
      cases h
      exact ⟨.same _, rfl, rfl, id, id, fun _ ↦ id, fun _ ↦ id⟩
  | _ => exact hc.elim

theorem besideProducer {t : Tid} (ht : t ≠ .producer) {c : Cmd} {r : c.Resp}
    (hc : Issues path t c) (h : apply c r s = some s') : BesideProducer s s' := by
  cases t with
  | producer => contradiction
  | consumer => exact besideProducer_of_consumer hc h
  | callback =>
      cases c with
      | pipe c =>
          obtain ⟨err, rfl⟩ := hc
          cases h
          refine ⟨.closeWrite _ _, rfl, rfl, id, id, fun _ ↦ id, fun err' herr ↦ ?_⟩
          dsimp only
          rw [Pipe.State.closeWrite, herr]
          rfl
      | afterFunc =>
          obtain ⟨-, rfl⟩ := of_ite_some h
          exact .refl s
      | _ => exact hc.elim
  | canceller =>
      cases c with
      | cancel err =>
          rcases apply_cancel h with rfl | ⟨-, rfl⟩
          · exact .refl s'
          · exact ⟨.same _, rfl, rfl, fun _ ↦ by simp, id, fun _ ↦ id, fun _ ↦ id⟩
      | _ => exact hc.elim
  | environment =>
      cases c with
      | outside =>
          cases h
          exact ⟨.same _, rfl, rfl, id, id, fun _ ↦ id, fun _ ↦ id⟩
      | _ => exact hc.elim

/-! ## Triples -/

theorem stable_consumer (h : ∀ s s', Inv options s → BesideConsumer s s' → L s → L s') :
    (protocol path options).Stable .consumer L := by
  intro t ht c r s s' hs _ ⟨hc, happly⟩ hl
  rcases hc with hc | ⟨-, rfl, -⟩
  · exact h s s' hs (besideConsumer ht hc happly) hl
  · obtain ⟨-, rfl⟩ := of_ite_some happly
    exact hl

theorem stable_producer (h : ∀ s s', Inv options s → BesideProducer s s' → L s → L s') :
    (protocol path options).Stable .producer L := by
  intro t ht c r s s' hs _ ⟨hc, happly⟩ hl
  rcases hc with hc | ⟨rfl, -⟩
  · exact h s s' hs (besideProducer ht hc happly) hl
  · exact absurd rfl ht

/-- One command of a goroutine. -/
theorem command (t : Tid) (c : Cmd) (hc : Issues path t c) {Q : c.Resp → State → Prop}
    (hstable : ∀ r, (protocol path options).Stable t (Q r))
    (h : ∀ s r s', Inv options s → L s → apply c r s = some s' → Inv options s' ∧ Q r s') :
    (protocol path options).Triple t (perform c) L Q := by
  refine Protocol.Triple.command hstable ?_
  intro s r s' hs hl happly
  obtain ⟨hinv, hq⟩ := h s r s' hs hl happly
  exact ⟨hinv, ⟨.inl hc, happly⟩, hq⟩

/-- The consumer has read `content` and has not concluded. -/
structure Reading (content : Str) (s : State) : Prop where
  outcome : s.outcome = none
  published : s.published = []
  transferred : s.pipe.transferred = content
  done : s.done = .empty
  doneClosed : s.doneClosed = false

/-- The consumer has seen the end of the stream after `content`. -/
structure AtEnd (content : Str) (s : State) : Prop extends Reading content s where
  werr : s.pipe.werr = some (.sentinel .eof)

/-- The consumer has looked at the context for the last time. -/
structure Checked (content : Str) (s : State) : Prop extends AtEnd content s where
  early : s.early = false

/-- The consumer has returned `r` from `Write`. -/
structure Concluded (r : Option Err) (s : State) : Prop where
  outcome : s.outcome = none
  published : r = none ↔ s.published ≠ []
  done : s.done = .empty
  doneClosed : s.doneClosed = false

theorem Reading.beside (hb : BesideConsumer s s') (h : Reading content s) : Reading content s' :=
  ⟨hb.outcome.trans h.outcome, hb.published.trans h.published, hb.transferred.trans h.transferred,
    hb.done.mpr h.done, hb.doneClosed.trans h.doneClosed⟩

theorem AtEnd.beside (hb : BesideConsumer s s') (h : AtEnd content s) : AtEnd content s' :=
  ⟨h.toReading.beside hb, hb.werr _ h.werr⟩

theorem stable_reading : (protocol path options).Stable .consumer (Reading content) :=
  stable_consumer fun _ _ _ hb ↦ Reading.beside hb

theorem stable_checked : (protocol path options).Stable .consumer (Checked content) :=
  stable_consumer fun _ _ hs hb h ↦ ⟨h.toAtEnd.beside hb, hb.early (hs.eof h.werr) h.early⟩

theorem Reading.concluded (h : Reading content s) (err : Err) : Concluded (some err) s :=
  ⟨h.outcome, by simp [h.published], h.done, h.doneClosed⟩

/-! ## The consumer -/

/-- Only the producer's `Close` makes a read return `io.EOF`. -/
theorem werr_of_readCloseError (h : p.readCloseError = .sentinel .eof) :
    p.werr = some (.sentinel .eof) := by
  unfold Pipe.State.readCloseError at h
  split at h
  · rename_i hwerr
    rw [hwerr, h]
  · exact absurd h (by decide)

structure ReadError (content : Str) (err : Err) (s : State) : Prop extends Reading content s where
  werr : err = .sentinel .eof → s.pipe.werr = some (.sentinel .eof)

theorem stable_readError {err : Err} :
    (protocol path options).Stable .consumer (ReadError content err) :=
  stable_consumer fun _ _ _ hb h ↦ ⟨h.toReading.beside hb, fun heof ↦ hb.werr _ (h.werr heof)⟩

def AfterRead (content : Str) : Except Err Str → State → Prop
  | .ok data => Reading (content ++ data)
  | .error err => ReadError content err

theorem enterRead_triple (content : Str) :
    (protocol path options).Triple .consumer (perform (.pipe .enterRead)) (Reading content)
      fun r s ↦ match (r : Option Err) with
        | none => Reading content s
        | some err => ReadError content err s := by
  refine command .consumer (.pipe .enterRead) (.inl rfl) ?_ ?_
  · rintro (_ | err)
    · exact stable_reading
    · exact stable_readError
  · intro s r s' hs hl happly
    obtain ⟨p, hp, rfl⟩ := apply_pipe happly
    obtain ⟨rfl, hr⟩ := Pipe.apply_enterRead hp
    refine ⟨hs, ?_⟩
    rcases r with _ | err
    · exact hl
    · refine ⟨hl, fun heof ↦ werr_of_readCloseError ?_⟩
      rw [heof] at hr
      split at hr
      · exact (Option.some.inj hr).symm
      · contradiction

theorem receive_triple (content : Str) :
    (protocol path options).Triple .consumer (perform (.pipe .receive)) (Reading content)
      fun r s ↦ AfterRead content r s := by
  refine command .consumer (.pipe .receive) (.inr rfl) ?_ ?_
  · rintro (err | data)
    · exact stable_readError
    · exact stable_reading
  · intro s r s' hs hl happly
    obtain ⟨p, hp, rfl⟩ := apply_pipe happly
    rcases r with err | data
    · obtain ⟨rfl, -, herr⟩ := Pipe.apply_receive_error hp
      exact ⟨hs, hl, fun heof ↦ werr_of_readCloseError (herr.symm.trans heof)⟩
    · obtain ⟨bytes, -, -, rfl⟩ := Pipe.apply_receive_ok hp
      refine ⟨{ hs with published := .inl hl.published }, { hl with transferred := ?_ }⟩
      change s.pipe.transferred ++ data = content ++ data
      rw [hl.transferred]

theorem read_triple (content : Str) :
    (protocol path options).Triple .consumer (Pipe.read fun c ↦ perform (.pipe c)) (Reading content)
      (AfterRead content) := by
  refine (enterRead_triple content).bind ?_
  rintro (_ | err)
  · exact receive_triple content
  · exact .keep rfl

theorem ctxErr_triple (content : Str) :
    (protocol path options).Triple .consumer (perform .ctxErr) (Reading content)
      fun _ s ↦ Reading content s := by
  refine command .consumer .ctxErr trivial
    (fun _ ↦ stable_reading) ?_
  intro s r s' hs hl happly
  obtain ⟨-, rfl⟩ := of_ite_some happly
  exact ⟨hs, hl⟩

def AfterCopy : Except Err Str → State → Prop
  | .ok content => AtEnd content
  | .error _ => fun s ↦ ∃ content, Reading content s

theorem copyPipe_triple :
    (protocol path options).Triple .consumer copyPipe (Reading []) AfterCopy := by
  refine Protocol.Triple.loop Reading ?_ ?_ ?_ []
  · exact fun _ ↦ stable_reading
  · rintro (err | content)
    · exact stable_consumer fun _ _ _ hb ⟨content, hl⟩ ↦ ⟨content, hl.beside hb⟩
    · exact stable_consumer fun _ _ _ hb ↦ AtEnd.beside hb
  · intro content
    refine (ctxErr_triple content).bind ?_
    rintro (_ | err)
    · refine (read_triple content).bind ?_
      rintro (err | data)
      · refine .ret fun s _ hl ↦ ?_
        dsimp only [Sum.elim_inr]
        split
        · rename_i heof
          exact ⟨hl.toReading, hl.werr heof⟩
        · exact ⟨content, hl.toReading⟩
      · exact .keep rfl
    · exact .ret fun _ _ hl ↦ ⟨content, hl⟩

/-- The last look at the context finds out whether it was done before `Close`. -/
theorem lastCheck_triple (content : Str) :
    (protocol path options).Triple .consumer (perform .ctxErr) (AtEnd content)
      fun r s ↦ match (r : Option CtxErr) with
        | none => Checked content s
        | some _ => Reading content s := by
  refine command .consumer .ctxErr trivial ?_ ?_
  · rintro (_ | err)
    · exact stable_checked
    · exact stable_reading
  · intro s r s' hs hl happly
    obtain ⟨hr, rfl⟩ := of_ite_some happly
    refine ⟨hs, ?_⟩
    rcases r with _ | err
    · refine ⟨hl, ?_⟩
      by_contra hearly
      exact hs.early_ctx (by simpa using hearly) hr.symm
    · exact hl.toReading

theorem clock_triple (content : Str) :
    (protocol path options).Triple .consumer (perform .clock) (Checked content)
      fun _ s ↦ Checked content s := by
  refine command .consumer .clock trivial
    (fun _ ↦ stable_checked) ?_
  intro s r s' hs hl happly
  cases happly
  exact ⟨hs, hl⟩

theorem publish_triple {visibility : Visibility}
    (hv : normalizeVisibility options.visibility = .ok visibility) (content : Str) (now : Time) :
    (protocol path options).Triple .consumer
      (perform (.publish path options.ifNoneMatch (newObject options visibility content now)))
      (Checked content) fun r s ↦ Concluded r s := by
  refine command .consumer (.publish path options.ifNoneMatch _) rfl
    (fun _ ↦ stable_consumer fun _ _ _ hb h ↦ ⟨hb.outcome.trans h.outcome,
      hb.published ▸ h.published, hb.done.mpr h.done, hb.doneClosed.trans h.doneClosed⟩) ?_
  intro s r s' hs hl happly
  obtain ⟨-, rfl⟩ := apply_publish happly
  rcases r with _ | err
  · have hpublished : s.published ++ [newObject options visibility content now] =
        [newObject options visibility content now] := by rw [hl.published]; rfl
    rw [if_pos rfl, hpublished]
    constructor
    · exact { hs with
        published := .inr ⟨_, rfl, ⟨visibility, now, hv, by rw [hl.transferred]⟩, hl.werr, hl.early⟩
        outcome_nil := by simp
        outcome_err := by
          intro err h
          rw [hl.outcome] at h
          contradiction }
    · exact ⟨hl.outcome, by simp, hl.done, hl.doneClosed⟩
  · exact ⟨{ hs with }, hl.outcome, by simp [hl.published], hl.done, hl.doneClosed⟩

theorem consume_triple :
    (protocol path options).Triple .consumer (consume path options) (Reading []) Concluded := by
  unfold consume
  split
  · exact .ret fun _ _ hl ↦ hl.concluded _
  · cases hv : normalizeVisibility options.visibility with
    | error err => exact .ret fun _ _ hl ↦ hl.concluded _
    | ok visibility =>
        refine copyPipe_triple.bind ?_
        rintro (err | content)
        · exact .ret fun _ _ ⟨_, hl⟩ ↦ hl.concluded _
        · refine (lastCheck_triple content).bind ?_
          rintro (_ | err)
          · refine (clock_triple content).bind fun now ↦ ?_
            exact publish_triple hv content now
          · exact .ret fun _ _ hl ↦ hl.concluded _

/-- The consumer has closed its end and not sent its result yet. -/
structure Closing (r : Option Err) (s : State) : Prop where
  outcome : s.outcome = some r
  done : s.done = .empty
  doneClosed : s.doneClosed = false

theorem closeRead_triple (r : Option Err) :
    (protocol path options).Triple .consumer (perform (.closeRead r)) (Concluded r)
      fun _ s ↦ Closing r s := by
  refine command .consumer (.closeRead r) trivial ?_ ?_
  · intro _
    exact stable_consumer fun _ _ _ hb hl ↦ ⟨hb.outcome.trans hl.outcome, hb.done.mpr hl.done,
      hb.doneClosed.trans hl.doneClosed⟩
  · intro s _ s' hs hl happly
    cases happly
    have houtcome : (s.outcome <|> some r) = some r := by rw [hl.outcome]; rfl
    rw [houtcome]
    constructor
    · exact { hs with
        outcome_nil := fun h ↦ hl.published.mp (Option.some.inj h)
        outcome_err := by
          intro err h
          by_contra hpublished
          have hr : r = some err := Option.some.inj h
          rw [hl.published.mpr hpublished] at hr
          contradiction
        closed := fun _ ↦ .inr (by simp)
        full := by
          intro err hfull
          rw [hl.done] at hfull
          contradiction
        finished := by
          intro hfinished
          have h := hs.finished hfinished
          rw [hl.outcome] at h
          contradiction }
    · exact ⟨rfl, hl.done, hl.doneClosed⟩

theorem send_triple (r : Option Err) :
    (protocol path options).Triple .consumer (perform (.send r)) (Closing r)
      fun _ s ↦ s.done ≠ .empty := by
  refine command .consumer (.send r) trivial ?_ ?_
  · exact fun _ ↦ stable_consumer fun _ _ _ hb hl hempty ↦ hl (hb.done.mp hempty)
  · intro s _ s' hs hl happly
    obtain ⟨-, rfl⟩ := of_ite_some happly
    constructor
    · exact { hs with
        full := by
          intro err h
          rw [← Channel.full.inj h]
          exact hl.outcome
        doneClosed := fun _ ↦ by simp }
    · simp

/-- The goroutine that runs the consumer. -/
theorem consumer_triple :
    (protocol path options).Triple .consumer (consumer path options) (Reading [])
      fun _ _ ↦ True := by
  refine consume_triple.bind fun r ↦ ?_
  refine (closeRead_triple r).bind fun _ ↦ ?_
  refine (send_triple r).bind fun _ ↦ ?_
  refine Protocol.Triple.bind (K := fun _ _ ↦ True) ?_ fun _ ↦ ?_
  · refine command .consumer .closeDone trivial (fun _ ↦ Protocol.stable_fact _) ?_
    intro s _ s' hs hl happly
    cases happly
    exact ⟨{ hs with doneClosed := fun _ ↦ hl }, trivial⟩
  · refine command .consumer .stopCancellation trivial (fun _ ↦ Protocol.stable_fact _) ?_
    intro s _ s' hs _ happly
    cases happly
    exact ⟨{ hs with }, trivial⟩

/-! ## The producer -/

/-- The stream can no longer end well: it was closed with an error, or the
consumer failed. -/
def Broken (s : State) : Prop :=
  (∃ err, s.pipe.werr = some err ∧ err ≠ .sentinel .eof) ∨ ∃ err, s.outcome = some (some err)

theorem Broken.beside (hb : BesideProducer s s') (h : Broken s) : Broken s' := by
  rcases h with ⟨err, hwerr, hne⟩ | ⟨err, houtcome⟩
  · exact .inl ⟨err, hb.werr err hwerr, hne⟩
  · exact .inr ⟨err, hb.outcome _ houtcome⟩

/-- A pipe that is closed before `Close` was called. -/
theorem Inv.broken (hs : Inv options s) (honce : s.once = .fresh) (hdone : s.pipe.done = true) :
    Broken s := by
  have hwerr : s.pipe.werr ≠ some (.sentinel .eof) := fun h ↦ hs.eof h honce
  rcases hs.closed hdone with h | h
  · obtain ⟨err, herr⟩ := Option.ne_none_iff_exists'.mp h
    exact .inl ⟨err, herr, fun heof ↦ hwerr (heof ▸ herr)⟩
  · obtain ⟨r, hr⟩ := Option.ne_none_iff_exists'.mp h
    rcases r with _ | err
    · rcases hs.published with hnil | ⟨_, -, -, heof, -⟩
      · exact absurd hnil (hs.outcome_nil hr)
      · exact absurd heof hwerr
    · exact .inr ⟨err, hr⟩

/-- Steps of the pipe that the invariant does not see. -/
theorem Inv.of_pipe (hs : Inv options s) (htransferred : p.transferred = s.pipe.transferred)
    (hwerr : p.werr = s.pipe.werr) (hdone : p.done = s.pipe.done) :
    Inv options { s with pipe := p } where
  published := by
    refine hs.published.imp_right ?_
    rintro ⟨object, hpublished, ⟨visibility, now, hv, rfl⟩, heof, hearly⟩
    exact ⟨_, hpublished, ⟨visibility, now, hv, by rw [htransferred]⟩, hwerr.trans heof, hearly⟩
  outcome_nil := hs.outcome_nil
  outcome_err := hs.outcome_err
  early_ctx := hs.early_ctx
  ctx_early := hs.ctx_early
  closed := by
    intro h
    rw [hwerr]
    exact hs.closed (hdone ▸ h)
  eof := by
    intro h
    exact hs.eof (hwerr ▸ h)
  full := hs.full
  doneClosed := hs.doneClosed
  finished := hs.finished

/-- Closing the writing end, with the end of the stream only from `Close`. -/
theorem Inv.closeWrite (hs : Inv options s) (err : Option Err)
    (h : err.getD Pipe.Errors.eof = .sentinel .eof → s.once ≠ .fresh) :
    Inv options { s with pipe := s.pipe.closeWrite err } := by
  refine { hs with published := ?_, closed := ?_, eof := ?_ }
  · refine hs.published.imp_right ?_
    rintro ⟨object, hpublished, hstreamed, heof, hearly⟩
    exact ⟨object, hpublished, hstreamed, (BesideConsumer.closeWrite s err).werr _ heof, hearly⟩
  · intro _
    left
    show (s.pipe.werr <|> some (err.getD Pipe.Errors.eof)) ≠ none
    simp
  · show (s.pipe.werr <|> some (err.getD Pipe.Errors.eof)) = some (.sentinel .eof) → _
    intro heof
    cases hwerr : s.pipe.werr with
    | none =>
        rw [hwerr] at heof
        exact h (Option.some.inj heof)
    | some err' =>
        rw [hwerr] at heof
        exact hs.eof (hwerr.trans heof)

/-- `Close` has not been called; if `φ`, the stream is broken. -/
structure Opened (φ : Prop) (s : State) : Prop where
  once : s.once = .fresh
  done : s.done ≠ .drained
  broken : φ → Broken s

theorem Opened.beside {φ : Prop} (hb : BesideProducer s s') (h : Opened φ s) : Opened φ s' :=
  ⟨hb.once.trans h.once, hb.done h.done, fun hφ ↦ (h.broken hφ).beside hb⟩

theorem writerEnd (φ : Prop) :
    Pipe.WriterEnd (protocol path options) .producer State.pipe (fun c ↦ perform (.pipe c))
      (Opened φ) where
  others t ht c r s s' _ _ hguar := by
    rcases hguar.1 with hc | ⟨rfl, -⟩
    · exact (besideProducer ht hc hguar.2).pipe
    · exact absurd rfl ht
  stable := stable_producer fun _ _ _ hb ↦ Opened.beside hb
  run c hc {L Q} hstable hstep := by
    have hissues : Issues path .producer (.pipe c) := by
      rcases hc with rfl | rfl | ⟨bytes, rfl⟩
      · exact .inl rfl
      · exact .inr (.inl rfl)
      · exact .inr (.inr (.inl ⟨bytes, rfl⟩))
    refine command .producer (.pipe c) hissues ?_ ?_
    · exact fun r ↦ (hstable r).and (stable_producer fun _ _ _ hb ↦ Opened.beside hb)
    · intro s r s' hs hl happly
      obtain ⟨p, hp, rfl⟩ := apply_pipe happly
      have hq := hstep s r { s with pipe := p } hs hl.1 hp
      rcases hc with rfl | rfl | ⟨bytes, rfl⟩
      · obtain ⟨rfl, -⟩ := Pipe.apply_enterWrite hp
        exact ⟨hs, hq, hl.2⟩
      · rcases r with err | count
        · obtain ⟨-, -, -, -, rfl⟩ := Pipe.apply_await_error hp
          exact ⟨hs.of_pipe rfl rfl rfl, hq, hl.2.once, hl.2.done, hl.2.broken⟩
        · obtain ⟨-, rfl⟩ := Pipe.apply_await_ok hp
          exact ⟨hs.of_pipe rfl rfl rfl, hq, hl.2.once, hl.2.done, hl.2.broken⟩
      · obtain ⟨-, rfl⟩ := Pipe.apply_offer hp
        exact ⟨hs.of_pipe rfl rfl rfl, hq, hl.2.once, hl.2.done, hl.2.broken⟩

/-- `content` went through the pipe and nothing is on offer, unless the stream is
broken. -/
structure Sent (content : Str) (s : State) : Prop where
  offer : s.pipe.offer = .nothing
  content : Broken s ∨ s.pipe.transferred = content

theorem Sent.beside (hb : BesideProducer s s') (h : Sent content s) : Sent content s' := by
  have hidle := hb.pipe.idle ⟨h.offer, rfl⟩
  refine ⟨hidle.1, ?_⟩
  rcases h.content with hbroken | hcontent
  · exact .inl (hbroken.beside hb)
  · exact .inr (hidle.2.trans hcontent)

/-- What `Writer.Write` leaves behind. -/
structure AfterWrite (φ : Prop) (sent content : Str) (r : Nat × Option Err) (s : State) : Prop where
  opened : Opened φ s
  idle : Pipe.Idle (sent ++ content.take r.1) s.pipe
  nil : r.2 = none → r.1 = content.length
  err : r.2 ≠ none → Broken s

theorem stable_afterWrite (φ : Prop) (sent content : Str) (r : Nat × Option Err) :
    (protocol path options).Stable .producer (AfterWrite φ sent content r) := by
  refine stable_producer fun s s' _ hb h ↦ ?_
  exact ⟨h.opened.beside hb, hb.pipe.idle h.idle, h.nil, fun herr ↦ (h.err herr).beside hb⟩

theorem write_triple (φ : Prop) (sent content : Str) :
    (protocol path options).Triple .producer (write content)
      (fun s ↦ Pipe.Idle sent s.pipe ∧ Opened φ s) (AfterWrite φ sent content) := by
  refine ((writerEnd φ).write sent content).bind ?_
  rintro ⟨n, _ | err⟩
  · refine .ret fun s _ ⟨hwrote, hopened⟩ ↦ ?_
    exact ⟨hopened, hwrote.1, fun _ ↦ hwrote.2, fun h ↦ absurd rfl h⟩
  · -- the context, once done, is still done when it is asked for its error
    let K (r : Option CtxErr) (s : State) : Prop :=
      (r ≠ none → s.ctx ≠ none) ∧ AfterWrite φ sent content (n, some err) s
    have hstable : ∀ r, (protocol path options).Stable .producer (K r) := by
      intro r
      exact (stable_producer fun _ _ _ hb h hr ↦ hb.ctx (h hr)).and (stable_afterWrite _ _ _ _)
    refine Protocol.Triple.bind (K := K) (command .producer .ctxErr trivial hstable ?_) ?_
    · intro s r s' hs ⟨hwrote, hopened⟩ happly
      obtain ⟨rfl, rfl⟩ := of_ite_some happly
      refine ⟨hs, id, hopened, hwrote.1, nofun, fun _ ↦ ?_⟩
      exact hs.broken hopened.once hwrote.2
    · rintro (_ | ctxErr)
      · exact .ret fun s _ hk ↦ hk.2
      · refine Protocol.Triple.bind
          (K := fun r s ↦ r ≠ none ∧ AfterWrite φ sent content (n, some err) s)
          (command .producer .ctxErr trivial ?_ ?_) ?_
        · exact fun r ↦ (Protocol.stable_fact _).and (stable_afterWrite _ _ _ _)
        · intro s r s' hs ⟨hctx, hafter⟩ happly
          obtain ⟨rfl, rfl⟩ := of_ite_some happly
          exact ⟨hs, hctx (by simp), hafter⟩
        · intro r
          refine .ret fun s _ ⟨hr, hafter⟩ ↦ ?_
          refine ⟨hafter.opened, hafter.idle, fun hnil ↦ ?_, fun _ ↦ hafter.err (by simp)⟩
          exact absurd (Option.map_eq_none_iff.mp hnil) hr

/-- The chunks whose write returned nil, one after another. -/
def accepted (chunks : List Str) (wrote : List (Option Err)) : Str :=
  ((chunks.zip wrote).filterMap fun (chunk, err) ↦ if err = none then some chunk else none).flatten

theorem writeAll_triple (chunks : List Str) (φ : Prop) (sent : Str) :
    (protocol path options).Triple .producer (writeAll chunks)
      (fun s ↦ Pipe.Idle sent s.pipe ∧ Opened φ s)
      fun wrote s ↦ Opened φ s ∧ Sent (sent ++ accepted chunks wrote) s := by
  induction chunks generalizing φ sent with
  | nil =>
      refine .ret fun s _ ⟨hidle, hopened⟩ ↦ ⟨hopened, hidle.1, .inr ?_⟩
      rw [hidle.2]
      simp [accepted]
  | cons chunk chunks ih =>
      refine (write_triple φ sent chunk).bind ?_
      rintro ⟨n, _ | err⟩
      · refine Protocol.Triple.bind ((ih φ (sent ++ chunk)).pre ?_) ?_
        · intro s _ h
          refine ⟨?_, h.opened⟩
          have hidle := h.idle
          rwa [h.nil rfl, List.take_length] at hidle
        · intro wrote
          refine .ret fun s _ ⟨hopened, hsent⟩ ↦ ⟨hopened, ?_⟩
          have haccepted : accepted (chunk :: chunks) (none :: wrote) =
              chunk ++ accepted chunks wrote := by
            simp [accepted]
          rwa [haccepted, ← List.append_assoc]
      · -- a failed write leaves the stream broken, and the rest keeps it so
        refine Protocol.Triple.bind (K := fun wrote s ↦
          Opened True s ∧ Sent (sent ++ chunk.take n ++ accepted chunks wrote) s) ?_ ?_
        · refine (ih True _).pre fun s _ h ↦ ?_
          exact ⟨h.idle, h.opened.once, h.opened.done, fun _ ↦ h.err (by simp)⟩
        · intro wrote
          refine .ret fun s _ ⟨hopened, hsent⟩ ↦ ?_
          have hbroken := hopened.broken trivial
          exact ⟨⟨hopened.once, hopened.done, fun _ ↦ hbroken⟩, hsent.offer, .inl hbroken⟩

/-- The function under `once.Do` runs. -/
structure InOnce (content : Str) (s : State) : Prop where
  once : s.once = .running
  done : s.done ≠ .drained
  sent : Sent content s

theorem stable_inOnce (content : Str) :
    (protocol path options).Stable .producer (InOnce content) := by
  refine stable_producer fun s s' _ hb h ↦ ?_
  exact ⟨hb.once.trans h.once, hb.done h.done, h.sent.beside hb⟩

/-- The function under `once.Do` has received `r`. -/
structure Received (content : Str) (r : Option Err) (s : State) : Prop where
  once : s.once = .running
  outcome : s.outcome = some r
  sent : Sent content s

/-- `Close` returns `r` from now on. -/
structure Closed (content : Str) (r : Option Err) (s : State) : Prop where
  once : s.once = .finished
  err : s.err = r
  sent : Sent content s

theorem stable_closed (content : Str) (r : Option Err) :
    (protocol path options).Stable .producer (Closed content r) := by
  refine stable_producer fun s s' _ hb h ↦ ?_
  exact ⟨hb.once.trans h.once, hb.err.trans h.err, h.sent.beside hb⟩

theorem loadErr_triple (content : Str) (r : Option Err) :
    (protocol path options).Triple .producer (perform .loadErr) (Closed content r)
      fun r' s ↦ r' = r ∧ Closed content r s := by
  refine Protocol.Triple.command (fun _ ↦ (Protocol.stable_fact _).and (stable_closed _ _)) ?_
  intro s r' s' hs hl happly
  have hguar : (protocol path options).Guar .producer .loadErr r' s s' :=
    ⟨.inr ⟨rfl, rfl, hl.once⟩, happly⟩
  obtain ⟨rfl, rfl⟩ := of_ite_some happly
  exact ⟨hs, hguar, hl.err, hl⟩

theorem closeWrite_triple (content : Str) :
    (protocol path options).Triple .producer (perform (.pipe (.closeWrite none))) (InOnce content)
      fun _ ↦ InOnce content := by
  refine command .producer (.pipe (.closeWrite none)) (.inr (.inr (.inr rfl)))
    (fun _ ↦ stable_inOnce content) ?_
  intro s _ s' hs hl happly
  have hbeside := BesideConsumer.closeWrite s none
  obtain ⟨p, hp, rfl⟩ := apply_pipe happly
  cases hp
  constructor
  · exact hs.closeWrite none fun _ ↦ by simp [hl.once]
  · refine ⟨hl.once, hl.done, hl.sent.offer, ?_⟩
    refine hl.sent.content.imp_left ?_
    rintro (⟨err, hwerr, hne⟩ | ⟨err, houtcome⟩)
    · exact .inl ⟨err, hbeside.werr err hwerr, hne⟩
    · exact .inr ⟨err, houtcome⟩

theorem receive_outcome_triple (content : Str) :
    (protocol path options).Triple .producer (perform .receive) (InOnce content)
      (Received content) := by
  refine command .producer .receive trivial (fun r ↦ stable_producer fun _ _ _ hb h ↦
    ⟨hb.once.trans h.once, hb.outcome r h.outcome, h.sent.beside hb⟩) ?_
  intro s r s' hs hl happly
  rcases apply_receive happly with ⟨hfull, rfl⟩ | ⟨hclosed, hnotFull, rfl⟩
  · exact ⟨{ hs with full := nofun, doneClosed := nofun }, hl.once, hs.full r hfull,
      hl.sent.offer, hl.sent.content⟩
  · have hempty := hs.doneClosed hclosed
    have hdrained := hl.done
    cases hdone : s'.done with
    | empty => exact absurd hdone hempty
    | full err => exact absurd hdone (hnotFull err)
    | drained => exact absurd hdone hdrained

/-- The function that the first `Close` runs under `once.Do`. -/
theorem onceDone_triple (content : Str) (r : Option Err) :
    (protocol path options).Triple .producer (perform (.onceDone r)) (Received content r)
      fun _ ↦ Closed content r := by
  refine command .producer (.onceDone r) trivial (fun _ ↦ stable_closed content r) ?_
  intro s _ s' hs hl happly
  cases happly
  exact ⟨{ hs with
    ctx_early := nofun
    eof := nofun
    finished := fun _ ↦ hl.outcome }, rfl, rfl, hl.sent.offer, hl.sent.content⟩

/-- The first call of `Close`. -/
theorem close_first (content : Str) :
    (protocol path options).Triple .producer close (fun s ↦ Opened False s ∧ Sent content s)
      (Closed content) := by
  refine Protocol.Triple.bind (K := fun first s ↦ first = true ∧ InOnce content s) ?_ ?_
  · refine command .producer .onceDo trivial ?_ ?_
    · exact fun _ ↦ (Protocol.stable_fact _).and (stable_inOnce content)
    · intro s r s' hs ⟨hopened, hsent⟩ happly
      rcases apply_onceDo happly with ⟨-, rfl, rfl⟩ | ⟨hfinished, -⟩
      · refine ⟨{ hs with ctx_early := nofun, eof := nofun, finished := nofun }, rfl, ?_⟩
        exact ⟨rfl, hopened.done, hsent.offer, hsent.content⟩
      · rw [hopened.once] at hfinished
        contradiction
  · intro first
    refine .of_fact ?_
    rintro rfl
    refine (closeWrite_triple content).bind fun _ ↦ ?_
    refine (receive_outcome_triple content).bind fun r ↦ ?_
    refine (onceDone_triple content r).bind fun _ ↦ ?_
    refine (loadErr_triple content r).conseq (fun _ _ h ↦ h) ?_
    rintro _ s _ ⟨rfl, h⟩
    exact h

/-- A later call of `Close`. -/
theorem close_again (content : Str) (r : Option Err) :
    (protocol path options).Triple .producer close (Closed content r)
      fun r' s ↦ r' = r ∧ Closed content r s := by
  refine Protocol.Triple.bind (K := fun first s ↦ first = false ∧ Closed content r s) ?_ ?_
  · refine command .producer .onceDo trivial ?_ ?_
    · exact fun _ ↦ (Protocol.stable_fact _).and (stable_closed content r)
    · intro s first s' hs hl happly
      rcases apply_onceDo happly with ⟨hfresh, -⟩ | ⟨-, rfl, rfl⟩
      · rw [hl.once] at hfresh
        contradiction
      · exact ⟨hs, rfl, hl⟩
  · intro first
    refine .of_fact ?_
    rintro rfl
    exact loadErr_triple content r

theorem closeAll_again (content : Str) (r : Option Err) (n : Nat) :
    (protocol path options).Triple .producer (closeAll n) (Closed content r)
      fun closed s ↦ (∀ r' ∈ closed, r' = r) ∧ Closed content r s := by
  induction n with
  | zero => exact .ret fun s _ h ↦ ⟨nofun, h⟩
  | succ n ih =>
      refine (close_again content r).bind fun r' ↦ ?_
      refine .of_fact fun hr ↦ ?_
      refine ih.bind fun closed ↦ ?_
      refine .ret fun s _ ⟨hclosed, h⟩ ↦ ⟨?_, h⟩
      exact List.forall_mem_cons.mpr ⟨hr, hclosed⟩

/-- Every call of `Close` has returned the same. -/
def ClosedAlike (content : Str) (closed : List (Option Err)) (s : State) : Prop :=
  closed ≠ [] → ∃ r, (∀ r' ∈ closed, r' = r) ∧ Closed content r s

theorem closeAll_triple (content : Str) (n : Nat) :
    (protocol path options).Triple .producer (closeAll n) (fun s ↦ Opened False s ∧ Sent content s)
      (ClosedAlike content) := by
  cases n with
  | zero => exact .ret fun s _ _ h ↦ absurd rfl h
  | succ n =>
      refine (close_first _).bind fun r ↦ ?_
      refine (closeAll_again _ r n).bind fun closed ↦ ?_
      refine .ret fun s _ ⟨hclosed, h⟩ _ ↦ ⟨r, ?_, h⟩
      exact List.forall_mem_cons.mpr ⟨rfl, hclosed⟩

theorem producer_triple (chunks : List Str) (closes : Nat) :
    (protocol path options).Triple .producer (producer chunks closes)
      (fun s ↦ Pipe.Idle [] s.pipe ∧ Opened False s)
      fun r ↦ ClosedAlike (accepted chunks r.1) r.2 := by
  refine (writeAll_triple chunks False []).bind fun wrote ↦ ?_
  refine (closeAll_triple _ closes).bind fun closed ↦ ?_
  exact .keep rfl

/-! ## The others -/

theorem callback_triple :
    (protocol path options).Triple .callback callback (fun _ ↦ True) fun _ _ ↦ True := by
  refine Protocol.Triple.bind (K := fun _ _ ↦ True) ?_ fun err ↦ ?_
  · refine command .callback .afterFunc trivial (fun _ ↦ Protocol.stable_fact _) ?_
    intro s r s' hs _ happly
    obtain ⟨-, rfl⟩ := of_ite_some happly
    exact ⟨hs, trivial⟩
  · refine command .callback (.pipe (.closeWrite (some err.err))) ⟨err, rfl⟩
      (fun _ ↦ Protocol.stable_fact _) ?_
    intro s _ s' hs _ happly
    obtain ⟨p, hp, rfl⟩ := apply_pipe happly
    cases hp
    refine ⟨hs.closeWrite (some err.err) ?_, trivial⟩
    cases err <;> exact nofun

theorem canceller_triple (err : CtxErr) :
    (protocol path options).Triple .canceller (canceller err) (fun _ ↦ True) fun _ _ ↦ True := by
  refine command .canceller (.cancel err) trivial (fun _ ↦ Protocol.stable_fact _) ?_
  intro s _ s' hs _ happly
  rcases apply_cancel happly with rfl | ⟨hctx, rfl⟩
  · exact ⟨hs, trivial⟩
  · refine ⟨{ hs with published := ?_, early_ctx := fun _ ↦ by simp, ctx_early := ?_ }, trivial⟩
    · refine hs.published.imp_right ?_
      rintro ⟨object, hpublished, hstreamed, heof, -⟩
      refine ⟨object, hpublished, hstreamed, heof, ?_⟩
      -- the stream has ended, so `Close` was called
      exact decide_eq_false (hs.eof heof)
    · intro _ honce
      exact decide_eq_true honce

theorem environment_triple :
    (protocol path options).Triple .environment environment (fun _ ↦ True) fun _ _ ↦ True := by
  refine Protocol.Triple.loop (fun _ _ ↦ True) (fun _ ↦ Protocol.stable_fact _)
    (fun _ ↦ Protocol.stable_fact _) ?_ ()
  intro _
  refine Protocol.Triple.bind (K := fun _ _ ↦ True) ?_ fun _ ↦ .ret fun _ _ _ ↦ trivial
  refine command .environment .outside trivial (fun _ ↦ Protocol.stable_fact _) ?_
  intro s f s' hs _ happly
  cases happly
  exact ⟨{ hs with }, trivial⟩

def Ended (chunks : List Str) : (t : Tid) → Returns t → State → Prop
  | .producer, r => ClosedAlike (accepted chunks r.1) r.2
  | _, _ => fun _ ↦ True

theorem verified_start (objects : Objects) (path : Path) (options : WriteOptions)
    (chunks : List Str) (closes : Nat) (err : CtxErr) :
    Verified (protocol path options) (Ended chunks)
      (start objects path options chunks closes err) where
  inv := {
    published := .inl rfl
    outcome_nil := nofun
    outcome_err := nofun
    early_ctx := nofun
    ctx_early := fun h ↦ absurd rfl h
    closed := nofun
    eof := nofun
    full := nofun
    doneClosed := nofun
    finished := nofun }
  threads t := by
    cases t with
    | producer =>
        refine ⟨_, ?_, ?_, producer_triple chunks closes⟩
        · exact stable_producer fun _ _ _ hb h ↦ ⟨hb.pipe.idle h.1, h.2.beside hb⟩
        · exact ⟨⟨rfl, rfl⟩, rfl, nofun, False.elim⟩
    | consumer =>
        refine ⟨_, ?_, ?_, consumer_triple⟩
        · exact stable_reading
        · exact ⟨rfl, rfl, rfl, rfl, rfl⟩
    | callback => exact ⟨_, Protocol.stable_fact _, trivial, callback_triple⟩
    | canceller => exact ⟨_, Protocol.stable_fact _, trivial, canceller_triple err⟩
    | environment => exact ⟨_, Protocol.stable_fact _, trivial, environment_triple⟩

/-! ## Runs -/

/-- The object that a step of the writer stores. -/
def publication : Label sig Tid → Option Object
  | .call _ (.publish _ _ stored) (none : Option Err) => some stored
  | _ => none

def publications (trace : List (Label sig Tid)) : List Object := trace.filterMap publication

/-- What a call of `Close` returns. -/
def closeResult : Label sig Tid → Option (Option Err)
  | .call _ .loadErr r => some r
  | _ => none

/-- What the calls of `Close` return during a run. -/
def closeResults (trace : List (Label sig Tid)) : List (Option Err) := trace.filterMap closeResult

def Outside : Label sig Tid → Prop
  | .call _ .outside _ => True
  | _ => False

variable {c c' : Config sig State Returns} {chunks : List Str} {l : Label sig Tid}
  {trace : List (Label sig Tid)}

theorem publish_objects (path : Path) (ifNoneMatch : Bool) (stored : Object) (objects : Objects) :
    (publish path ifNoneMatch stored objects).2 =
      if (publish path ifNoneMatch stored objects).1 = none then objects.insert path.value stored
      else objects := by
  unfold publish
  split <;> rfl

/-- What every step does to the parts of the state that a run is judged by. -/
structure Progress (l : Label sig Tid) (s s' : State) : Prop where
  published : s'.published = s.published ++ (publication l).toList
  outcome : ∀ r, s.outcome = some r → s'.outcome = some r
  early : s.ctx ≠ none → s'.early = s.early ∧ s'.ctx ≠ none
  objects : ¬Outside l → publication l = none → s'.objects = s.objects

theorem Progress.of_none (hl : publication l = none)
    (hobjects : ¬Outside l → s'.objects = s.objects)
    (h : (s'.published, s'.outcome, s'.early, s'.ctx) = (s.published, s.outcome, s.early, s.ctx)) :
    Progress l s s' := by
  simp only [Prod.mk.injEq] at h
  obtain ⟨hpublished, houtcome, hearly, hctx⟩ := h
  refine ⟨?_, fun r hr ↦ houtcome.trans hr, fun h ↦ ⟨hearly, hctx ▸ h⟩, fun hl _ ↦ hobjects hl⟩
  rw [hl, hpublished, Option.toList_none, List.append_nil]

theorem progress {t : Tid} {cmd : Cmd} {r : cmd.Resp} (h : apply cmd r s = some s') :
    Progress (.call t cmd r) s s' := by
  cases cmd with
  | pipe cmd =>
      obtain ⟨p, -, rfl⟩ := apply_pipe h
      exact .of_none rfl (fun _ ↦ rfl) rfl
  | publish path ifNoneMatch stored =>
      obtain ⟨hr, rfl⟩ := apply_publish h
      cases r with
      | none => exact ⟨rfl, fun _ ↦ id, fun hctx ↦ ⟨rfl, hctx⟩, nofun⟩
      | some err =>
          refine .of_none rfl (fun _ ↦ ?_) rfl
          dsimp only
          rw [publish_objects, ← hr]
          rfl
  | ctxErr =>
      obtain ⟨-, rfl⟩ := of_ite_some h
      exact .of_none rfl (fun _ ↦ rfl) rfl
  | send err =>
      obtain ⟨-, rfl⟩ := of_ite_some h
      exact .of_none rfl (fun _ ↦ rfl) rfl
  | afterFunc =>
      obtain ⟨-, rfl⟩ := of_ite_some h
      exact .of_none rfl (fun _ ↦ rfl) rfl
  | cancel err =>
      rcases apply_cancel h with rfl | ⟨hctx, rfl⟩
      · exact .of_none rfl (fun _ ↦ rfl) rfl
      · exact ⟨(List.append_nil _).symm, fun _ ↦ id, fun h ↦ absurd hctx h, fun _ _ ↦ rfl⟩
  | onceDo =>
      rcases apply_onceDo h with ⟨-, -, rfl⟩ | ⟨-, -, rfl⟩
      · exact .of_none rfl (fun _ ↦ rfl) rfl
      · exact .of_none rfl (fun _ ↦ rfl) rfl
  | receive =>
      rcases apply_receive h with ⟨-, rfl⟩ | ⟨-, -, rfl⟩
      · exact .of_none rfl (fun _ ↦ rfl) rfl
      · exact .of_none rfl (fun _ ↦ rfl) rfl
  | loadErr =>
      obtain ⟨-, rfl⟩ := of_ite_some h
      exact .of_none rfl (fun _ ↦ rfl) rfl
  | closeRead err =>
      cases h
      refine ⟨(List.append_nil _).symm, fun r hr ↦ ?_, fun hctx ↦ ⟨rfl, hctx⟩, fun _ _ ↦ rfl⟩
      show (s.outcome <|> some err) = some r
      rw [hr]
      rfl
  | outside =>
      cases h
      exact .of_none rfl (fun hl ↦ absurd trivial hl) rfl
  | _ =>
      cases h
      exact .of_none rfl (fun _ ↦ rfl) rfl

theorem progress_of_step (h : Step machine c l c') : Progress l c.state c'.state := by
  cases h with
  | call hthread happly => exact progress happly
  | silent hthread => exact .of_none rfl (fun _ ↦ rfl) rfl

theorem published_of_run (h : Run machine c trace c') :
    c'.state.published = c.state.published ++ publications trace := by
  induction h with
  | refl => exact (List.append_nil _).symm
  | @snoc _ _ trace l _ hstep ih =>
      rw [(progress_of_step hstep).published, ih, List.append_assoc]
      cases hl : publication l <;> simp [publications, hl]

/-- Once the context is done, whether that was before `Close` is settled. -/
theorem early_of_run (h : Run machine c trace c') (hctx : c.state.ctx ≠ none) :
    c'.state.early = c.state.early ∧ c'.state.ctx ≠ none := by
  induction h with
  | refl => exact ⟨rfl, hctx⟩
  | snoc _ hstep ih =>
      obtain ⟨hearly, hctx'⟩ := (progress_of_step hstep).early ih.2
      exact ⟨hearly.trans ih.1, hctx'⟩

theorem eq_of_closeResult {r : Option Err} (h : closeResult l = some r) :
    ∃ t, l = .call t .loadErr r := by
  unfold closeResult at h
  split at h
  · exact ⟨_, congrArg _ (Option.some.inj h)⟩
  · contradiction

/-- A call of `Close` returns the consumer's result. -/
theorem Inv.outcome_of_guar {t : Tid} {r : Option Err} (hs : Inv options s)
    (h : (protocol path options).Guar t .loadErr r s s') : s'.outcome = some r := by
  obtain ⟨hissues | ⟨-, -, honce⟩, happly⟩ := h
  · cases t <;> exact hissues.elim
  · obtain ⟨rfl, rfl⟩ := of_ite_some happly
    exact hs.finished honce

theorem outcome_of_run {Q : (t : Tid) → Returns t → State → Prop}
    (hverified : Verified (protocol path options) Q c) (h : Run machine c trace c') :
    ∀ r ∈ closeResults trace, c'.state.outcome = some r := by
  induction h with
  | refl => exact nofun
  | @snoc c₁ c₂ trace l hrun hstep ih =>
      intro r hr
      rw [closeResults, List.filterMap_append] at hr
      rcases List.mem_append.mp hr with hr | hr
      · exact (progress_of_step hstep).outcome r (ih r hr)
      · obtain ⟨l', hl', hresult⟩ := List.mem_filterMap.mp hr
        obtain rfl := List.mem_singleton.mp hl'
        obtain ⟨t, rfl⟩ := eq_of_closeResult hresult
        have hc₁ := hverified.run hrun
        exact hc₁.inv.outcome_of_guar (hc₁.step hstep).2

theorem eq_of_publication {object : Object} (h : publication l = some object) :
    ∃ t p ifNoneMatch, l = .call t (.publish p ifNoneMatch object) (none : Option Err) := by
  unfold publication at h
  split at h
  · cases h
    exact ⟨_, _, _, rfl⟩
  · contradiction

/-- What the writer publishes is put at its path. -/
theorem objects_of_publication {Q : (t : Tid) → Returns t → State → Prop} {object : Object}
    (hverified : Verified (protocol path options) Q c) (hstep : Step machine c l c')
    (h : publication l = some object) :
    c'.state.objects = c.state.objects.insert path.value object := by
  obtain ⟨t, p, ifNoneMatch, rfl⟩ := eq_of_publication h
  obtain ⟨hissues | ⟨-, hload, -⟩, happly⟩ := (hverified.step hstep).2
  · obtain rfl : p = path := by cases t <;> first | exact hissues | exact hissues.elim
    obtain ⟨hr, hs⟩ := apply_publish happly
    rw [hs, publish_objects, ← hr, if_pos rfl]
  · contradiction

theorem Inv.published_length (hs : Inv options s) : s.published.length ≤ 1 := by
  rcases hs.published with h | ⟨object, h, -⟩
  · simp [h]
  · simp [h]

theorem Inv.published_of_outcome (hs : Inv options s) (h : s.outcome = some none) :
    ∃ object, s.published = [object] ∧ Streamed options s object := by
  rcases hs.published with hnil | ⟨object, hpublished, hstreamed, -⟩
  · exact absurd hnil (hs.outcome_nil h)
  · exact ⟨object, hpublished, hstreamed⟩

/-- A stream that was broken is not published. -/
theorem Inv.published_of_broken (hs : Inv options s) (h : Broken s) : s.published = [] := by
  rcases h with ⟨err, hwerr, hne⟩ | ⟨err, houtcome⟩
  · rcases hs.published with hnil | ⟨_, -, -, heof, -⟩
    · exact hnil
    · exact absurd (Option.some.inj (hwerr.symm.trans heof)) hne
  · exact hs.outcome_err err houtcome

theorem Inv.content_of_closed (hs : Inv options s) (h : Closed content none s) :
    ∃ object, s.published = [object] ∧ object.content = content := by
  have houtcome : s.outcome = some none := h.err ▸ hs.finished h.once
  obtain ⟨object, hpublished, visibility, now, -, rfl⟩ := hs.published_of_outcome houtcome
  refine ⟨_, hpublished, ?_⟩
  rcases h.sent.content with hbroken | hcontent
  · rw [hs.published_of_broken hbroken] at hpublished
    contradiction
  · exact hcontent

/-- A writer that was cancelled before `Close` was called. -/
theorem Inv.published_of_early (hs : Inv options s) (h : s.early = true) : s.published = [] := by
  rcases hs.published with hnil | ⟨_, -, -, -, hearly⟩
  · exact hnil
  · rw [h] at hearly
    contradiction

/-- In every run of a streaming writer, and whatever its goroutines and the other
users of the adapter do: the writer changes the store only by what it publishes,
which it puts at its path, and which is one object at most; once the producer has
closed the writer, every call of `Close` has returned the same, nil if the chunks
whose write returned nil were published in order and an error if nothing was; no call
of `Close` that has returned so far says anything else; and if the context is done
while `Close` has not been called, then nothing was and nothing will be published. -/
theorem streaming_publication {objects : Objects} {closes : Nat} {err : CtxErr}
    (hrun : Run machine (start objects path options chunks closes err) trace c) :
    (∀ l (c₁ c₂ : Config sig State Returns), Step machine c₁ l c₂ → ¬Outside l →
      publication l = none → c₂.state.objects = c₁.state.objects) ∧
    (∀ l c', Step machine c l c' → ∀ object, publication l = some object →
      c'.state.objects = c.state.objects.insert path.value object) ∧
    (publications trace).length ≤ 1 ∧
    (∀ wrote closed, c.threads .producer = .ret (wrote, closed) →
      (none ∈ closed → ∃ object, publications trace = [object] ∧
        object.content = accepted chunks wrote) ∧
      (∀ err, some err ∈ closed → publications trace = []) ∧
      ∀ r ∈ closed, ∀ r' ∈ closed, r = r') ∧
    (∀ r ∈ closeResults trace, (r = none ↔ (publications trace).length = 1) ∧
      (r ≠ none ↔ publications trace = []) ∧ ∀ r' ∈ closeResults trace, r' = r) ∧
    ∀ trace' c', Run machine c trace' c' → c.state.ctx ≠ none → c.state.once = .fresh →
      publications (trace ++ trace') = [] := by
  have hverified := (verified_start objects path options chunks closes err).run hrun
  have hs := hverified.inv
  have hpublished : c.state.published = publications trace := published_of_run hrun
  rw [← hpublished]
  refine ⟨fun l c₁ c₂ hstep ↦ (progress_of_step hstep).objects,
    fun l c' hstep object ↦ objects_of_publication hverified hstep, hs.published_length, ?_, ?_, ?_⟩
  · intro wrote closed hret
    have hclosed : ClosedAlike (accepted chunks wrote) closed c.state := hverified.returned hret
    refine ⟨fun hnone ↦ ?_, fun err herr ↦ ?_, fun r hr r' hr' ↦ ?_⟩
    · obtain ⟨r, hall, h⟩ := hclosed (List.ne_nil_of_mem hnone)
      obtain rfl := hall none hnone
      exact hs.content_of_closed h
    · obtain ⟨r, hall, h⟩ := hclosed (List.ne_nil_of_mem herr)
      obtain rfl := hall _ herr
      exact hs.outcome_err err (h.err ▸ hs.finished h.once)
    · obtain ⟨r₀, hall, -⟩ := hclosed (List.ne_nil_of_mem hr)
      rw [hall r hr, hall r' hr']
  · intro r hr
    have hall := outcome_of_run (verified_start objects path options chunks closes err) hrun
    have houtcome := hall r hr
    refine and_assoc.mp ⟨?_, fun r' hr' ↦ Option.some.inj ((hall r' hr').symm.trans houtcome)⟩
    cases r with
    | none =>
        obtain ⟨object, h, -⟩ := hs.published_of_outcome houtcome
        simp [h]
    | some err => simp [hs.outcome_err err houtcome]
  · intro trace' c' hrun' hctx honce
    have hearly := (early_of_run hrun' hctx).1.trans (hs.ctx_early hctx honce)
    have hnil := (hverified.run hrun').inv.published_of_early hearly
    rw [published_of_run hrun', hpublished] at hnil
    rwa [publications, List.filterMap_append]

/-- A chunk is written and the writer is closed twice. -/
theorem oneChunk_published :
    ∃ trace c, Run machine (start new .a {} [.lit "x"] 2 .canceled) trace c ∧
      c.threads .producer = .ret ([none], [none, none]) ∧
      ∃ object, publications trace = [object] ∧ object.content = .lit "x" ∧
        c.state.objects.lookup Path.a.value = some object := by
  let schedule : List Tid :=
    .replicate 3 .consumer ++ .replicate 3 .producer ++ .replicate 4 .consumer ++
      .replicate 3 .producer ++ .replicate 8 .consumer ++ .replicate 5 .producer
  obtain ⟨trace, c, object, hexec, hret, hone, hstored⟩ : ∃ trace c object,
      machine.exec (fun _ _ ↦ True) (fun _ ↦ answer) schedule
        (start new .a {} [.lit "x"] 2 .canceled) = some (trace, c) ∧
      c.threads .producer = .ret ([none], [none, none]) ∧ publications trace = [object] ∧
      c.state.objects.lookup Path.a.value = some object := ⟨_, _, _, rfl, rfl, rfl, rfl⟩
  have hrun := (Machine.run_of_exec hexec).run
  obtain ⟨-, -, -, hclosed, -⟩ := streaming_publication hrun
  obtain ⟨_, hpublished, hcontent⟩ := (hclosed _ _ hret).1 (by simp)
  obtain rfl := List.singleton_inj.mp (hone.symm.trans hpublished)
  exact ⟨trace, c, hrun, hret, object, hone, hcontent, hstored⟩

end GoFilesystem.Memory.Streaming
