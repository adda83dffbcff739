import GoFilesystem.Client

/-!
# Adapters that see only part of their state

When two runs of an adapter differ in their clocks and in parts of the state
that a client should not see, the client should be able to tell them apart by
modification times only.  This file states that for methods (`Alike`), for
adapters (`Backend.Local`) and for the operations of a client (`call_local`):
from states related by `R`, in environments that differ in the clock only, both
runs return the same up to modification times, and the states are related
again.
-/

namespace GoFilesystem

open Go

def Metadata.timeless (metadata : Metadata) : Metadata := { metadata with modified := 0 }

def Entry.timeless (entry : Entry) : Entry := { entry with modified := 0 }

def Listing.timeless (listing : Listing) : Listing :=
  { listing with entries := listing.entries.map Entry.timeless }

def Result.timeless : Result → Result
  | .metadata m err => .metadata m.timeless err
  | .listing l err => .listing l.timeless err
  | result => result

/-- Two environments that differ in their clock only and range over maps in one
fixed order of keys. -/
structure SameButClock (order : KeyOrder Str) (env env' : Env) : Prop where
  ctx : env.ctx = env'.ctx
  objectsOrder : env.objectsOrder = order.toIterOrder
  objectsOrder' : env'.objectsOrder = order.toIterOrder
  entriesOrder : env.entriesOrder = env'.entriesOrder

/-- Frames with related states in which the call has come equally far. -/
structure Frame.Rel {σ : Type} (R : σ → σ → Prop) (frame frame' : Frame σ) : Prop where
  store : R frame.store frame'.store
  polls : frame.polls = frame'.polls
  events : frame.events = frame'.events

namespace Method

variable {σ α β : Type} {order : KeyOrder Str} {R : σ → σ → Prop} {V : α → α → Prop}

/-- The two calls cannot be told apart. -/
abbrev Alike (order : KeyOrder Str) (R : σ → σ → Prop) (V : α → β → Prop) (x : Method σ α)
    (y : Method σ β) : Prop :=
  Call.Related (SameButClock order) (Frame.Rel R) V x y

theorem alike_ctxErr : Alike order R Eq ctxErr ctxErr := by
  intro env env' frame frame' henv hframe
  refine ⟨?_, hframe.store, congrArg (· + 1) hframe.polls, hframe.events⟩
  rw [henv.ctx, hframe.polls]

theorem alike_clock : Alike order R (fun _ _ ↦ True) clock clock :=
  fun _ _ _ _ _ hframe ↦ ⟨trivial, hframe⟩

theorem alike_ask : Alike order R (SameButClock order) Call.ask Call.ask :=
  fun _ _ _ _ henv hframe ↦ ⟨henv, hframe⟩

theorem alike_load : Alike order R R load load := fun _ _ _ _ _ hframe ↦ ⟨hframe.store, hframe⟩

theorem alike_emit (event : Event) : Alike order R Eq (emit event) (emit event) := by
  intro env env' frame frame' _ hframe
  exact ⟨rfl, hframe.store, hframe.polls, congrArg (· ++ [event]) hframe.events⟩

theorem alike_modify {f g : σ → α × σ} (h : ∀ s t, R s t → V (f s).1 (g t).1 ∧ R (f s).2 (g t).2) :
    Alike order R V (modify f) (modify g) := by
  intro env env' frame frame' _ hframe
  obtain ⟨hv, hr⟩ := h _ _ hframe.store
  exact ⟨hv, hr, hframe.polls, hframe.events⟩

theorem alike_mustParsePath (value : Str) :
    Alike order R Eq (mustParsePath value) (mustParsePath value) := by
  unfold mustParsePath
  split
  · exact .pure rfl
  · exact .panic

theorem alike_copySource (source : Source) :
    Alike order R Eq (copySource source) (copySource source) :=
  related_copyReads alike_ctxErr source source.reads []

end Method

open Method

variable {σ : Type} {order : KeyOrder Str} {R : σ → σ → Prop}

/-- A pair of a value and an error, the value compared by `f`. -/
def SameUpTo {α β : Type} (f : α → β) (r r' : α × Option Err) : Prop :=
  f r.1 = f r'.1 ∧ r.2 = r'.2

/-- Two writers whose uploads cannot be told apart. -/
def Writer.Alike (order : KeyOrder Str) (R : σ → σ → Prop) (writer writer' : Writer σ) : Prop :=
  ∀ source, Method.Alike order R Eq (writer.consume source) (writer'.consume source)

/-- The same error, or two writers that cannot be told apart. -/
inductive OpensAlike (order : KeyOrder Str) (R : σ → σ → Prop) :
    Except Err (Writer σ) → Except Err (Writer σ) → Prop
  | error (err : Err) : OpensAlike order R (.error err) (.error err)
  | ok {writer writer' : Writer σ} (h : writer.Alike order R writer') :
      OpensAlike order R (.ok writer) (.ok writer')

/-- Called with paths in `A`, the adapter sees only what `R` relates. -/
structure Backend.Local (order : KeyOrder Str) (R : σ → σ → Prop) (A : Path → Prop)
    (b : Backend σ) : Prop where
  openPath : ∀ path, A path → Method.Alike order R Eq (b.openPath path) (b.openPath path)
  openRange : ∀ path byteRange, A path →
    Method.Alike order R Eq (b.openRange path byteRange) (b.openRange path byteRange)
  write : ∀ path source options, A path → Method.Alike order R (SameUpTo Metadata.timeless)
    (b.write path source options) (b.write path source options)
  openWriter : ∀ path options, A path →
    Method.Alike order R (OpensAlike order R) (b.openWriter path options)
      (b.openWriter path options)
  delete : ∀ path, A path → Method.Alike order R Eq (b.delete path) (b.delete path)
  list : ∀ path options, A path → Method.Alike order R (SameUpTo Listing.timeless)
    (b.list path options) (b.list path options)
  stat : ∀ path, A path →
    Method.Alike order R (SameUpTo Metadata.timeless) (b.stat path) (b.stat path)
  copy : ∀ source destination options, A source → A destination →
    Method.Alike order R Eq (b.copy source destination options) (b.copy source destination options)
  move : ∀ source destination options, A source → A destination →
    Method.Alike order R Eq (b.move source destination options) (b.move source destination options)
  setMetadata : ∀ path metadata, A path →
    Method.Alike order R Eq (b.setMetadata path metadata) (b.setMetadata path metadata)
  checksum : ∀ path algorithm, A path →
    Method.Alike order R Eq (b.checksum path algorithm) (b.checksum path algorithm)
  visibility : ∀ path, A path → Method.Alike order R Eq (b.visibility path) (b.visibility path)
  setVisibility : ∀ path visibility, A path →
    Method.Alike order R Eq (b.setVisibility path visibility) (b.setVisibility path visibility)
  temporaryURL : ∀ sign ∈ b.temporaryURL, ∀ path lifetime options, A path →
    Method.Alike order R Eq (sign path lifetime options) (sign path lifetime options)

/-- Two writers of a client that cannot be told apart. -/
structure OpenWriter.Alike (order : KeyOrder Str) (R : σ → σ → Prop)
    (opened opened' : OpenWriter σ) : Prop where
  writer : opened.writer.Alike order R opened'.writer
  result : opened.result = opened'.result

abbrev WritersAlike (order : KeyOrder Str) (R : σ → σ → Prop)
    (writers writers' : List (OpenWriter σ)) : Prop :=
  List.Forall₂ (OpenWriter.Alike order R) writers writers'

/-- What an operation returns to a client in two runs. -/
structure CallAlike (order : KeyOrder Str) (R : σ → σ → Prop)
    (r r' : Result × List (OpenWriter σ)) : Prop where
  result : r.1.timeless = r'.1.timeless
  writers : WritersAlike order R r.2 r'.2

section Client

variable {A : Path → Prop} {b : Backend σ} {writers writers' : List (OpenWriter σ)}

theorem close_local (hw : WritersAlike order R writers writers') (handle : Nat)
    (chunks : List Str) :
    Method.Alike order R (CallAlike order R) (Client.close writers handle chunks)
      (Client.close writers' handle chunks) := by
  unfold Client.close
  have hget : Option.Rel (OpenWriter.Alike order R) writers[handle]? writers'[handle]? :=
    forall₂_getElem? hw handle
  cases hwriter : writers[handle]? with
  | none =>
      cases hwriter' : writers'[handle]? with
      | none => exact .pure ⟨rfl, hw⟩
      | some opened' => rw [hwriter, hwriter'] at hget; nomatch hget
  | some opened =>
      cases hwriter' : writers'[handle]? with
      | none => rw [hwriter, hwriter'] at hget; nomatch hget
      | some opened' =>
          rw [hwriter, hwriter'] at hget
          obtain ⟨hopened⟩ := hget
          dsimp only
          rw [← hopened.result]
          cases opened.result with
          | some err => exact .pure ⟨rfl, hw⟩
          | none =>
              refine (hopened.writer _).bind ?_
              rintro err _ rfl
              exact .pure ⟨rfl, forall₂_set hw handle ⟨hopened.writer, rfl⟩⟩

/-- An operation of a client in two runs. -/
theorem call_local (hb : b.Local order R A) (hA : ∀ path, A path)
    (hw : WritersAlike order R writers writers') (op : Op) :
    Method.Alike order R (CallAlike order R) (Client.call b writers op)
      (Client.call b writers' op) := by
  -- most operations return a value that is the same in both runs
  have same : ∀ {α : Type} {x : Method σ α} (result : α → Result), Method.Alike order R Eq x x →
      Method.Alike order R (CallAlike order R) (x >>= fun a ↦ pure (result a, writers))
        (x >>= fun a ↦ pure (result a, writers')) := by
    intro α x result hx
    refine hx.bind ?_
    rintro a _ rfl
    exact .pure ⟨rfl, hw⟩
  cases op with
  | openPath path => exact same (fun r ↦ .stream r.1 r.2) (hb.openPath path (hA _))
  | openRange path byteRange =>
      exact same (fun r ↦ .stream r.1 r.2) (hb.openRange path byteRange (hA _))
  | write path source options =>
      refine (hb.write path source options (hA _)).bind fun r r' hr ↦ .pure ⟨?_, hw⟩
      exact congrArg₂ Result.metadata hr.1 hr.2
  | openWriter path options =>
      refine (hb.openWriter path options (hA _)).bind fun r r' hr ↦ ?_
      cases hr with
      | error err => exact .pure ⟨rfl, hw⟩
      | ok hwriter =>
          refine .pure ⟨congrArg Result.handle hw.length_eq, ?_⟩
          exact List.rel_append hw (.cons ⟨hwriter, rfl⟩ .nil)
  | closeWriter handle chunks => exact close_local hw handle chunks
  | delete path => exact same .done (hb.delete path (hA _))
  | list directory options =>
      refine (hb.list directory options (hA _)).bind fun r r' hr ↦ .pure ⟨?_, hw⟩
      exact congrArg₂ Result.listing hr.1 hr.2
  | stat path =>
      refine (hb.stat path (hA _)).bind fun r r' hr ↦ .pure ⟨?_, hw⟩
      exact congrArg₂ Result.metadata hr.1 hr.2
  | copy source destination options =>
      exact same .done (hb.copy source destination options (hA _) (hA _))
  | move source destination options =>
      exact same .done (hb.move source destination options (hA _) (hA _))
  | setMetadata path metadata => exact same .done (hb.setMetadata path metadata (hA _))
  | checksum path algorithm =>
      exact same (fun r ↦ .checksum r.1 r.2) (hb.checksum path algorithm (hA _))
  | visibility path => exact same (fun r ↦ .visibility r.1 r.2) (hb.visibility path (hA _))
  | setVisibility path visibility =>
      exact same .done (hb.setVisibility path visibility (hA _))
  | temporaryURL path lifetime options =>
      unfold Client.call
      cases hsign : b.temporaryURL with
      | none => exact .pure ⟨rfl, hw⟩
      | some sign =>
          exact same (fun r ↦ .url r.1 r.2) (hb.temporaryURL sign hsign path _ _ (hA _))

/-- What an operation that returns in one run does in the other. -/
theorem perform_local (hb : b.Local order R A) (hA : ∀ path, A path) (op : Op) {env env' : Env}
    (henv : SameButClock order env env') {client next : Client σ} (client' : Client σ)
    (hstore : R client.store client'.store)
    (hw : WritersAlike order R client.writers client'.writers) {result : Result}
    {events : List Event} (h : Client.perform b op env client = some (result, events, next)) :
    ∃ result' next', Client.perform b op env' client' = some (result', events, next') ∧
      result.timeless = result'.timeless ∧ R next.store next'.store ∧
      WritersAlike order R next.writers next'.writers := by
  have hout := call_local hb hA hw op env env' { store := client.store }
    { store := client'.store } henv ⟨hstore, rfl, rfl⟩
  obtain ⟨⟨r, frame⟩, hcall, heq⟩ := Option.map_eq_some_iff.mp h
  simp only [Prod.mk.injEq] at heq
  obtain ⟨rfl, rfl, rfl⟩ := heq
  rw [hcall] at hout
  cases hcall' : Client.call b client'.writers op env' { store := client'.store } with
  | none => rw [hcall'] at hout; exact hout.elim
  | some p =>
      obtain ⟨r', frame'⟩ := p
      rw [hcall'] at hout
      obtain ⟨hr, hframe⟩ := hout
      refine ⟨r'.1, ⟨frame'.store, r'.2⟩, ?_, hr.result, hframe.store, hr.writers⟩
      rw [Client.perform_of_call hcall', hframe.events]

end Client

end GoFilesystem
