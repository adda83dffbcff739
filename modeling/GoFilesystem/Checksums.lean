import GoFilesystem.Decorator.Confinement
import GoFilesystem.Go.Hash
import GoFilesystem.Memory.Adapter

/-!
# Checksums

The three ways to compute a checksum: the in-memory adapter hashes what it holds
in one call, the local adapter and a decorator with `WithChecksums` copy a stream
into a digest.  The local adapter prints a CRC as a number and the decorator the
bytes of its digest.

| source | here |
|---|---|
| `memory.Adapter.Checksum` | `Memory.checksum` |
| `local.Adapter.Checksum` | `Local.checksum`, over its own `Open` |
| `decorator.Adapter.Checksum` | `Decorator.streamingChecksum`, one attempt `digestChecksum` |
| `md5.Sum`, `md5.New`, … | `Packages` |

What is assumed of the hash packages is `Packages.Lawful`: a digest computes what
the function of the package computes, however its input is cut, and the bytes of
a CRC are the big-endian bytes of the number.
-/

namespace GoFilesystem

open Go

/-- The packages `md5`, `sha256` and `crc32`: the functions that hash a string at
once, and the digests. -/
structure Packages where
  oneShot : Hashes
  md5 : Hash
  sha256 : Hash
  crc32c : Hash32

/-- What the packages promise. -/
structure Packages.Lawful (packages : Packages) : Prop where
  md5 : packages.md5.Streams packages.md5.sum packages.oneShot.md5
  sha256 : packages.sha256.Streams packages.sha256.sum packages.oneShot.sha256
  crc32c : packages.crc32c.Streams packages.crc32c.sum32 packages.oneShot.crc32c
  sum_crc32c : ∀ digest, packages.crc32c.sum digest = bigEndian (packages.crc32c.sum32 digest)
  length_md5 : ∀ content, (packages.oneShot.md5 content).length = 16
  length_sha256 : ∀ content, (packages.oneShot.sha256 content).length = 32

/-- `io.Copy` of a stream into a digest. -/
def copyInto (h : Hash) (source : Source) : Except Err h.State :=
  if source.Complete then .ok (h.feed (source.reads ++ [source.last])) else .error source.err

/-! ## The two that stream -/

def streamed (h : Hash) (render : h.State → Str) (algorithm : ChecksumAlgorithm) (source : Source) :
    Checksum × Option Err :=
  match copyInto h source with
  | .error err => ({}, some err)
  | .ok digest => ({ algorithm, value := render digest }, none)

/-- `Checksum` of the local adapter, over what its `Open` returns. -/
def Local.checksum {σ : Type} (packages : Packages)
    (openPath : Path → Method σ (Stream × Option Err)) (path : Path)
    (algorithm : ChecksumAlgorithm) : Method σ (Checksum × Option Err) := do
  match ← openPath path with
  | (_, some err) => return ({}, some err)
  | (stream, none) =>
    match algorithm with
    | .md5 =>
      return streamed packages.md5 (fun digest ↦ hexEncode (packages.md5.sum digest)) algorithm
        stream.source
    | .sha256 =>
      return streamed packages.sha256 (fun digest ↦ hexEncode (packages.sha256.sum digest))
        algorithm stream.source
    | .crc32c =>
      return streamed packages.crc32c.toHash
        (fun digest ↦ sprintf08x (packages.crc32c.sum32 digest)) algorithm stream.source
    | .other _ => return ({}, some (unsupported "local" .checksum .checksum))

namespace Decorator

variable {σ : Type}

def newDigest (packages : Packages) : ChecksumAlgorithm → Option Hash
  | .md5 => some packages.md5
  | .sha256 => some packages.sha256
  | .crc32c => some packages.crc32c.toHash
  | .other _ => none

/-- What `Checksum` does with an open stream. -/
def summed (h : Hash) (algorithm : ChecksumAlgorithm) (stream : Stream) : Checksum × Option Err :=
  match copyInto h stream.source with
  | .error err => ({}, some err)
  | .ok digest =>
    match stream.closeErr with
    | some err => ({}, some err)
    | none => ({ algorithm, value := hexEncode (h.sum digest) }, none)

/-- One attempt of `Checksum` with `WithChecksums`, with the digest it feeds. -/
def digestChecksum (packages : Packages) (config : Config) (b : Backend σ) (path : Path)
    (algorithm : ChecksumAlgorithm) : Method σ (Checksum × Option Err) := do
  match newDigest packages algorithm with
  | none =>
    return ({}, some (GoFilesystem.unsupported "decorator/checksum" .checksum .checksum))
  | some h =>
    match ← b.openPath (← internal config path) with
    | (_, some err) => return ({}, some err)
    | (stream, none) => return summed h algorithm stream

/-- `Checksum`. -/
def streamingChecksum (packages : Packages) (config : Config) (b : Backend σ) (path : Path)
    (algorithm : ChecksumAlgorithm) : Method σ (Checksum × Option Err) :=
  observeCall config .checksum path .root Prod.snd <| retryCall config {} do
    if config.checksums then digestChecksum packages config b path algorithm
    else b.checksum (← internal config path) algorithm

end Decorator

/-! ## What they compute -/

/-- The checksum of a content, in the words of the algorithms; `none` for an
algorithm that is not supported. -/
def checksumOf (hashes : Hashes) (content : Str) : ChecksumAlgorithm → Option Str
  | .md5 => some (hexEncode (hashes.md5 content))
  | .sha256 => some (hexEncode (hashes.sha256 content))
  | .crc32c => some (hexEncode (bigEndian (hashes.crc32c content)))
  | .other _ => none

def checksumWidth : ChecksumAlgorithm → Nat
  | .md5 => 32
  | .sha256 => 64
  | .crc32c => 8
  | .other _ => 0

section Values

variable {packages : Packages} {content value : Str} {algorithm : ChecksumAlgorithm}
  {source : Source} {σ : Type}

/-- A checksum is a fixed number of lowercase digits. -/
theorem shape_checksumOf (hlawful : packages.Lawful)
    (h : checksumOf packages.oneShot content algorithm = some value) :
    IsLowerHex value ∧ value.length = checksumWidth algorithm := by
  cases algorithm with
  | md5 =>
      cases h
      exact ⟨isLowerHex_hexEncode _, by rw [length_hexEncode, hlawful.length_md5]; rfl⟩
  | sha256 =>
      cases h
      exact ⟨isLowerHex_hexEncode _, by rw [length_hexEncode, hlawful.length_sha256]; rfl⟩
  | crc32c =>
      cases h
      exact ⟨isLowerHex_hexEncode _, by rw [length_hexEncode]; rfl⟩
  | other text => contradiction

/-- A digest into which a stream has been copied holds its content. -/
theorem sum_feed_source {α : Type} {h : Hash} {sum : h.State → α} {f : Str → α}
    (hs : h.Streams sum f) (source : Source) :
    sum (h.feed (source.reads ++ [source.last])) = f source.content := by
  rw [hs.feed, List.flatten_append, List.flatten_singleton, Source.content]

/-- What copying a stream into a digest returns. -/
theorem streamed_eq {α : Type} {h : Hash} {sum : h.State → α} {f : Str → α}
    (hs : h.Streams sum f) (render : α → Str) (algorithm : ChecksumAlgorithm) (source : Source) :
    streamed h (fun digest ↦ render (sum digest)) algorithm source =
      if source.Complete then ({ algorithm, value := render (f source.content) }, none)
      else ({}, some source.err) := by
  unfold streamed copyInto
  split_ifs
  · dsimp only
    rw [sum_feed_source hs]
  · rfl

/-- What the local adapter makes of the stream it has opened. -/
theorem Local.checksum_of_open {openPath : Path → Method σ (Stream × Option Err)} {path : Path}
    {env : Env} {frame frame' : Frame σ} {stream : Stream} (hlawful : packages.Lawful)
    (hopen : openPath path env frame = some ((stream, none), frame')) :
    Local.checksum packages openPath path algorithm env frame =
      some (match checksumOf packages.oneShot stream.source.content algorithm with
        | none => ({}, some (unsupported "local" .checksum .checksum))
        | some value =>
          if stream.source.Complete then ({ algorithm, value }, none)
          else ({}, some stream.source.err), frame') := by
  unfold Local.checksum
  rw [Call.bind_apply, hopen, Option.bind_some]
  cases algorithm with
  | md5 =>
      exact congrArg (fun r ↦ some (r, frame')) (streamed_eq hlawful.md5 hexEncode _ stream.source)
  | sha256 =>
      exact congrArg (fun r ↦ some (r, frame'))
        (streamed_eq hlawful.sha256 hexEncode _ stream.source)
  | crc32c =>
      have h := streamed_eq hlawful.crc32c sprintf08x .crc32c stream.source
      rw [← hexEncode_bigEndian] at h
      exact congrArg (fun r ↦ some (r, frame')) h
  | other text => rfl

namespace Decorator

variable {config : Config} {b : Backend σ} {path : Path} {env : Env} {frame frame' : Frame σ}

/-- What the decorator makes of an open stream, in the words of its content. -/
theorem summed_eq {h : Hash} {f : Str → Str} (hs : h.Streams h.sum f) (stream : Stream) :
    summed h algorithm stream =
      match stream.source.copy with
      | .error err => ({}, some err)
      | .ok content =>
        match stream.closeErr with
        | some err => ({}, some err)
        | none => ({ algorithm, value := hexEncode (f content) }, none) := by
  unfold summed copyInto Source.copy
  split_ifs
  · dsimp only
    rw [sum_feed_source hs]
  · rfl

theorem digestChecksum_of_streams {h : Hash} {f : Str → Str}
    (hdigest : newDigest packages algorithm = some h)
    (hsum : digest packages.oneShot algorithm = some f) (hs : h.Streams h.sum f) :
    digestChecksum packages config b path algorithm =
      streamChecksum packages.oneShot config b path algorithm := by
  unfold digestChecksum streamChecksum
  rw [hdigest, hsum]
  dsimp only
  rw [internal_bind, internal_bind]
  refine bind_congr fun opened ↦ ?_
  obtain ⟨stream, err⟩ := opened
  cases err with
  | some err => rfl
  | none =>
      dsimp only
      rw [summed_eq hs]
      cases stream.source.copy with
      | error err => rfl
      | ok content => cases stream.closeErr <;> rfl

/-- Feeding a digest is reading the content and hashing it at once. -/
theorem digestChecksum_eq_streamChecksum (hlawful : packages.Lawful) :
    digestChecksum packages config b path algorithm =
      streamChecksum packages.oneShot config b path algorithm := by
  cases algorithm with
  | md5 => exact digestChecksum_of_streams rfl rfl hlawful.md5
  | sha256 => exact digestChecksum_of_streams rfl rfl hlawful.sha256
  | crc32c =>
      refine digestChecksum_of_streams rfl rfl fun chunks ↦ ?_
      rw [hlawful.sum_crc32c, hlawful.crc32c]
  | other text => rfl

/-- The method of the decorated backend is the one that feeds a digest. -/
theorem streamingChecksum_eq_checksum (hlawful : packages.Lawful) :
    streamingChecksum packages config b path algorithm =
      (decorate packages.oneShot config b).checksum path algorithm := by
  unfold streamingChecksum
  rw [digestChecksum_eq_streamChecksum hlawful]
  rfl

theorem checksumOf_eq_digest (hashes : Hashes) (content : Str) (algorithm : ChecksumAlgorithm) :
    checksumOf hashes content algorithm =
      (digest hashes algorithm).map fun sum ↦ hexEncode (sum content) := by
  cases algorithm <;> rfl

/-- One attempt has a checksum of a stream that is complete and can be closed. -/
theorem streamChecksum_eq_some {hashes : Hashes} {checksum : Checksum} :
    streamChecksum hashes config b path algorithm env frame =
        some ((checksum, none), frame') ↔
      ∃ stream, b.openPath (internalPath config.prefixPath path) env frame =
          some ((stream, none), frame') ∧ stream.source.Complete ∧ stream.closeErr = none ∧
        checksum.algorithm = algorithm ∧
        checksumOf hashes stream.source.content algorithm = some checksum.value := by
  rw [streamChecksum]
  simp only [checksumOf_eq_digest]
  cases digest hashes algorithm with
  | none => simp
  | some sum =>
      dsimp only
      rw [internal_bind, Call.bind_apply]
      cases b.openPath (internalPath config.prefixPath path) env frame with
      | none => simp
      | some opened =>
          obtain ⟨⟨stream, _ | err⟩, frame₁⟩ := opened
          · obtain ⟨algorithm', value'⟩ := checksum
            unfold Source.copy
            by_cases hcomplete : stream.source.Complete <;> cases hclose : stream.closeErr <;>
              simp [hcomplete, hclose, and_comm, and_assoc, eq_comm]
          · simp

/-! ## Attempts -/

variable {α : Type} {zero result : α} {call : Method σ (α × Option Err)}

/-- A call that succeeds is made once. -/
theorem retryCall_of_succeeds (config : Config) (zero : α) (hctx : env.ctx frame.polls = none)
    (h : ∀ frame, ∃ frame', call env frame = some ((result, none), frame')) :
    ∃ frame', retryCall config zero call env frame = some ((result, none), frame') := by
  unfold retryCall
  cases config.retry with
  | none => exact h frame
  | some policy =>
      obtain ⟨frame', hcall⟩ := h { frame with polls := frame.polls + 1 }
      refine ⟨frame', ?_⟩
      dsimp only
      cases policy.attempts - 1 with
      | zero =>
          rw [retryFrom, Call.bind_apply, Method.ctxErr_apply, hctx]
          exact hcall
      | succ remaining =>
          rw [retryFrom, Call.bind_apply, Method.ctxErr_apply, hctx, Option.map_none,
            Option.bind_some]
          dsimp only
          rw [Call.bind_apply, hcall]
          rfl

/-- What the loop returns without an error, an attempt has returned. -/
theorem exists_call_of_retryFrom {policy : RetryPolicy} {remaining : Nat}
    (h : retryFrom policy zero call remaining env frame = some ((result, none), frame')) :
    ∃ frame₁ frame₂, call env frame₁ = some ((result, none), frame₂) := by
  induction remaining generalizing frame with
  | zero =>
      rw [retryFrom, Call.bind_apply, Method.ctxErr_apply, Option.bind_some] at h
      cases hctx : env.ctx frame.polls with
      | some err => rw [hctx] at h; simp at h
      | none => rw [hctx] at h; exact ⟨_, _, h⟩
  | succ remaining ih =>
      rw [retryFrom, Call.bind_apply, Method.ctxErr_apply, Option.bind_some] at h
      cases hctx : env.ctx frame.polls with
      | some err => rw [hctx] at h; simp at h
      | none =>
          rw [hctx, Option.map_none] at h
          dsimp only at h
          rw [Call.bind_apply] at h
          obtain ⟨⟨⟨value, err⟩, frame₁⟩, hcall, h⟩ := Option.bind_eq_some_iff.mp h
          cases err with
          | none =>
              simp only [Call.pure_apply, Option.some.injEq, Prod.mk.injEq] at h
              rw [h.1.1] at hcall
              exact ⟨_, _, hcall⟩
          | some err =>
              dsimp only at h
              split_ifs at h
              · simp at h
              · cases hbackoff : policy.backoff with
                | none => rw [hbackoff] at h; exact ih h
                | some delay =>
                    rw [hbackoff] at h
                    dsimp only at h
                    rw [Call.bind_apply, Method.ctxErr_apply, Option.bind_some] at h
                    cases hwait : env.ctx frame₁.polls with
                    | some err => rw [hwait] at h; simp at h
                    | none => rw [hwait] at h; exact ih h

theorem exists_call_of_retryCall
    (h : retryCall config zero call env frame = some ((result, none), frame')) :
    ∃ frame₁ frame₂, call env frame₁ = some ((result, none), frame₂) := by
  unfold retryCall at h
  cases hretry : config.retry with
  | none => rw [hretry] at h; exact ⟨_, _, h⟩
  | some policy => rw [hretry] at h; exact exists_call_of_retryFrom h

/-- Observing a call does not change what it returns. -/
theorem observeCall_eq_some {operation : Operation} {path destination : Path}
    {errOf : α → Option Err} {call : Method σ α} :
    (∃ frame', observeCall config operation path destination errOf call env frame =
      some (result, frame')) ↔ ∃ frame', call env frame = some (result, frame') := by
  unfold observeCall
  rw [Call.bind_apply]
  cases call env frame with
  | none => simp
  | some outcome =>
      obtain ⟨value, frame₁⟩ := outcome
      rw [Option.bind_some]
      dsimp only
      split_ifs
      · rw [Call.bind_apply, Method.emit_apply, Option.bind_some]
        simp
      · simp

/-- The backend serves a content at a path, cut into reads in any way, whenever it
is asked. -/
def Serves (b : Backend σ) (path : Path) (env : Env) (content : Str) : Prop :=
  ∀ frame, ∃ stream frame', b.openPath path env frame = some ((stream, none), frame') ∧
    stream.source.Complete ∧ stream.source.content = content ∧ stream.closeErr = none

/-- The whole of `Checksum`, over a backend that serves a content. -/
theorem streamingChecksum_of_serves (hlawful : packages.Lawful) (hconfig : config.checksums = true)
    (hctx : env.ctx frame.polls = none)
    (hserves : Serves b (internalPath config.prefixPath path) env content)
    (hvalue : checksumOf packages.oneShot content algorithm = some value) :
    ∃ frame', streamingChecksum packages config b path algorithm env frame =
      some (({ algorithm, value }, none), frame') := by
  rw [streamingChecksum_eq_checksum hlawful]
  refine observeCall_eq_some.mpr (retryCall_of_succeeds config ({} : Checksum) hctx fun frame ↦ ?_)
  obtain ⟨stream, frame', hopen, hcomplete, rfl, hclose⟩ := hserves frame
  refine ⟨frame', ?_⟩
  rw [if_pos hconfig]
  exact streamChecksum_eq_some.mpr ⟨stream, hopen, hcomplete, hclose, rfl, hvalue⟩

/-- Where a checksum comes from. -/
theorem exists_stream_of_streamingChecksum {c : Checksum} (hlawful : packages.Lawful)
    (hconfig : config.checksums = true)
    (h : streamingChecksum packages config b path algorithm env frame = some ((c, none), frame')) :
    ∃ stream frame₁ frame₂, b.openPath (internalPath config.prefixPath path) env frame₁ =
        some ((stream, none), frame₂) ∧ stream.source.Complete ∧ c.algorithm = algorithm ∧
      checksumOf packages.oneShot stream.source.content algorithm = some c.value := by
  rw [streamingChecksum_eq_checksum hlawful] at h
  obtain ⟨_, hretry⟩ := observeCall_eq_some.mp ⟨frame', h⟩
  obtain ⟨frame₁, frame₂, hcall⟩ := exists_call_of_retryCall hretry
  rw [if_pos hconfig] at hcall
  obtain ⟨stream, hopen, hcomplete, -, hvalue⟩ := streamChecksum_eq_some.mp hcall
  exact ⟨stream, frame₁, frame₂, hopen, hcomplete, hvalue⟩

end Decorator

/-! ## Agreement -/

/-- The in-memory adapter hashes what it holds. -/
theorem Memory.checksum_apply {path : Path} {env : Env} {frame : Frame Memory.Objects}
    {stored : Memory.Object} (hctx : env.ctx frame.polls = none)
    (hstored : frame.store.lookup path.value = some stored) :
    Memory.checksum packages.oneShot path algorithm env frame =
      some (match checksumOf packages.oneShot stored.content algorithm with
        | none => ({}, some (unsupported "memory" .checksum .checksum))
        | some value => ({ algorithm, value }, none), { frame with polls := frame.polls + 1 }) := by
  rw [Memory.checksum, Memory.reading_apply, hctx, hstored]
  dsimp only
  cases algorithm with
  | crc32c =>
      rw [checksumOf, hexEncode_bigEndian]
      rfl
  | _ => rfl

/-- All three compute one value, which is a fixed number of lowercase digits. -/
structure OneValue (packages : Packages) (algorithm : ChecksumAlgorithm) (content value : Str) :
    Prop where
  digits : IsLowerHex value
  width : value.length = checksumWidth algorithm
  inMemory : ∀ {path : Path} {env : Env} {frame : Frame Memory.Objects} {stored : Memory.Object},
    env.ctx frame.polls = none → frame.store.lookup path.value = some stored →
    stored.content = content →
    ∃ frame', Memory.checksum packages.oneShot path algorithm env frame =
      some (({ algorithm, value }, none), frame')
  inLocal : ∀ {σ : Type} {openPath : Path → Method σ (Stream × Option Err)} {path : Path}
    {env : Env} {frame frame' : Frame σ} {stream : Stream},
    openPath path env frame = some ((stream, none), frame') → stream.source.Complete →
    stream.source.content = content →
    Local.checksum packages openPath path algorithm env frame =
      some (({ algorithm, value }, none), frame')
  inDecorator : ∀ {σ : Type} {config : Decorator.Config} {b : Backend σ} {path : Path} {env : Env}
    {frame : Frame σ}, config.checksums = true → env.ctx frame.polls = none →
    Decorator.Serves b (Decorator.internalPath config.prefixPath path) env content →
    ∃ frame', Decorator.streamingChecksum packages config b path algorithm env frame =
      some (({ algorithm, value }, none), frame')

/-- A checksum that any of them returns is that of a content which was held, or
read to its end. -/
structure OnlyOfContents (packages : Packages) (algorithm : ChecksumAlgorithm) (c : Checksum) :
    Prop where
  inMemory : ∀ {path : Path} {env : Env} {frame frame' : Frame Memory.Objects},
    Memory.checksum packages.oneShot path algorithm env frame = some ((c, none), frame') →
    ∃ stored, frame.store.lookup path.value = some stored ∧ c.algorithm = algorithm ∧
      checksumOf packages.oneShot stored.content algorithm = some c.value
  inLocal : ∀ {σ : Type} {openPath : Path → Method σ (Stream × Option Err)} {path : Path}
    {env : Env} {frame frame' : Frame σ},
    Local.checksum packages openPath path algorithm env frame = some ((c, none), frame') →
    ∃ stream, openPath path env frame = some ((stream, none), frame') ∧
      stream.source.Complete ∧ c.algorithm = algorithm ∧
      checksumOf packages.oneShot stream.source.content algorithm = some c.value
  inDecorator : ∀ {σ : Type} {config : Decorator.Config} {b : Backend σ} {path : Path} {env : Env}
    {frame frame' : Frame σ}, config.checksums = true →
    Decorator.streamingChecksum packages config b path algorithm env frame =
      some ((c, none), frame') →
    ∃ stream frame₁ frame₂, b.openPath (Decorator.internalPath config.prefixPath path) env frame₁ =
        some ((stream, none), frame₂) ∧ stream.source.Complete ∧ c.algorithm = algorithm ∧
      checksumOf packages.oneShot stream.source.content algorithm = some c.value

theorem oneValue (hlawful : packages.Lawful)
    (hvalue : checksumOf packages.oneShot content algorithm = some value) :
    OneValue packages algorithm content value where
  digits := (shape_checksumOf hlawful hvalue).1
  width := (shape_checksumOf hlawful hvalue).2
  inMemory hctx hstored hcontent := by
    rw [Memory.checksum_apply hctx hstored, hcontent, hvalue]
    exact ⟨_, rfl⟩
  inLocal hopen hcomplete hcontent := by
    rw [Local.checksum_of_open hlawful hopen, hcontent, hvalue]
    dsimp only
    rw [if_pos hcomplete]
  inDecorator hconfig hctx hserves :=
    Decorator.streamingChecksum_of_serves hlawful hconfig hctx hserves hvalue

theorem onlyOfContents (hlawful : packages.Lawful) (algorithm : ChecksumAlgorithm) (c : Checksum) :
    OnlyOfContents packages algorithm c where
  inMemory {path env frame frame'} h := by
    cases hctx : env.ctx frame.polls with
    | some err =>
        rw [Memory.checksum, Memory.reading_apply, hctx] at h
        simp at h
    | none =>
        cases hstored : frame.store.lookup path.value with
        | none =>
            rw [Memory.checksum, Memory.reading_apply, hctx, hstored] at h
            simp at h
        | some stored =>
            rw [Memory.checksum_apply hctx hstored] at h
            cases hvalue : checksumOf packages.oneShot stored.content algorithm with
            | none => rw [hvalue] at h; simp at h
            | some value =>
                rw [hvalue] at h
                simp only [Option.some.injEq, Prod.mk.injEq] at h
                rw [← h.1.1]
                exact ⟨stored, rfl, rfl, hvalue⟩
  inLocal {σ openPath path env frame frame'} h := by
    cases hopen : openPath path env frame with
    | none =>
        rw [Local.checksum, Call.bind_apply, hopen] at h
        contradiction
    | some opened =>
        obtain ⟨⟨stream, err⟩, frame₁⟩ := opened
        cases err with
        | some err =>
            rw [Local.checksum, Call.bind_apply, hopen] at h
            simp at h
        | none =>
            rw [Local.checksum_of_open hlawful hopen, Option.some.injEq, Prod.mk.injEq] at h
            obtain ⟨hresult, rfl⟩ := h
            cases hvalue : checksumOf packages.oneShot stream.source.content algorithm with
            | none => rw [hvalue] at hresult; simp at hresult
            | some value =>
                rw [hvalue] at hresult
                dsimp only at hresult
                split_ifs at hresult with hcomplete
                · obtain rfl := congrArg Prod.fst hresult
                  exact ⟨stream, rfl, hcomplete, rfl, hvalue⟩
                · simp at hresult
  inDecorator hconfig h := Decorator.exists_stream_of_streamingChecksum hlawful hconfig h

end Values

/-- For every content and every supported algorithm, however a stream cuts the
content into reads, the three adapters compute the same digits; all algorithms but
the three are unsupported; and an unsupported algorithm, or a stream whose read
fails, never yields a checksum. -/
theorem checksums_agree {packages : Packages} (hlawful : packages.Lawful) :
    (∀ algorithm content value, checksumOf packages.oneShot content algorithm = some value →
      OneValue packages algorithm content value) ∧
    (∀ algorithm content, checksumOf packages.oneShot content algorithm = none ↔
      ∃ text, algorithm = .other text) ∧
    ∀ algorithm c, OnlyOfContents packages algorithm c := by
  refine ⟨fun _ _ _ ↦ oneValue hlawful, fun algorithm content ↦ ?_, onlyOfContents hlawful⟩
  cases algorithm with
  | other text => exact iff_of_true rfl ⟨text, rfl⟩
  | _ => exact iff_of_false nofun nofun

/-! ## A set of packages -/

def crcBit (crc : UInt32) : UInt32 :=
  if crc &&& 1 = 1 then (crc >>> 1) ^^^ 0x82f63b78 else crc >>> 1

def crcByte (crc : UInt32) (b : UInt8) : UInt32 := crcBit^[8] (crc ^^^ b.toUInt32)

/-- The digest that folds bytes into a number. -/
def foldDigest (start : UInt32) (step : UInt32 → UInt8 → UInt32) (sum : UInt32 → Str) : Hash where
  State := UInt32
  new := start
  write := List.foldl step
  sum := sum

theorem streams_foldDigest {α : Type} (start : UInt32) (step : UInt32 → UInt8 → UInt32)
    (sum : UInt32 → Str) (sum' : UInt32 → α) :
    (foldDigest start step sum).Streams sum' fun content ↦ sum' (content.foldl step start) := by
  intro chunks
  exact congrArg sum' List.foldl_flatten.symm

/-- Packages with the CRC-32C; their other digests only have the right length. -/
def crcPackages : Packages where
  oneShot.md5 content := List.replicate 16 (content.foldl crcByte 0).toUInt8
  oneShot.sha256 content := List.replicate 32 (content.foldl crcByte 0).toUInt8
  oneShot.crc32c content := ~~~content.foldl crcByte 0xffffffff
  md5 := foldDigest 0 crcByte fun n ↦ List.replicate 16 n.toUInt8
  sha256 := foldDigest 0 crcByte fun n ↦ List.replicate 32 n.toUInt8
  crc32c := { foldDigest 0xffffffff crcByte fun n ↦ bigEndian (~~~n) with sum32 := fun n ↦ ~~~n }

theorem lawful_crcPackages : crcPackages.Lawful where
  md5 := streams_foldDigest _ _ _ _
  sha256 := streams_foldDigest _ _ _ _
  crc32c := streams_foldDigest _ _ (fun n ↦ bigEndian (~~~n)) fun n ↦ ~~~n
  sum_crc32c _ := rfl
  length_md5 _ := List.length_replicate
  length_sha256 _ := List.length_replicate

/-- The CRC of five bytes, from a stream that returns them in two reads. -/
theorem checksums_agree_hello :
    checksumOf crcPackages.oneShot (.lit "hello") .crc32c = some (.lit "9a71bb4c") ∧
      (∀ env frame, Local.checksum (σ := Unit) crcPackages
        (fun _ ↦ pure ({ source := { reads := [.lit "he", [], .lit "llo"] } }, none)) .root .crc32c
          env frame = some (({ algorithm := .crc32c, value := .lit "9a71bb4c" }, none), frame)) ∧
      checksumOf crcPackages.oneShot [] (.other (.lit "sha1")) = none := by
  have hvalue : checksumOf crcPackages.oneShot (.lit "hello") .crc32c = some (.lit "9a71bb4c") := by
    decide +kernel
  obtain ⟨hagree, hnone, -⟩ := checksums_agree lawful_crcPackages
  exact ⟨hvalue, fun env frame ↦ (hagree _ _ _ hvalue).inLocal rfl rfl (by decide),
    (hnone _ _).mpr ⟨_, rfl⟩⟩

end GoFilesystem
