import GoFilesystem.Access

/-!
# Adapters that return the same

Two adapters over two states, called side by side, return the same when every
call fails in both with errors of the same class, or succeeds in both with the
same value.  `Backend.Agrees` states this method by method, for environments
related by `X` and states related by `R`; a listing may ask for more (`L`), since
it is the method that ranges over maps.  `inStep_of_agrees` carries it to the
clients of the two adapters.
-/

namespace GoFilesystem

open Go

/-! ## Results -/

/-- `errors.Is` does not tell the errors apart. -/
def Err.SameClass (err err' : Err) : Prop := ∀ target, err.is target = err'.is target

theorem Err.SameClass.refl (err : Err) : err.SameClass err := fun _ ↦ rfl

/-- Both nil, or errors of the same class. -/
inductive SameError : Option Err → Option Err → Prop
  | none : SameError none none
  | some {err err' : Err} (h : err.SameClass err') : SameError (some err) (some err')

theorem SameError.refl (err : Option Err) : SameError err err := by
  cases err with
  | none => exact .none
  | some err => exact .some (.refl err)

theorem SameError.trans {err err' err'' : Option Err} (h : SameError err err')
    (h' : SameError err' err'') : SameError err err'' := by
  cases h with
  | none => exact h'
  | some h =>
      cases h' with
      | some h' => exact .some fun target ↦ (h target).trans (h' target)

/-- Both succeed with related values, or both fail with errors of the same
class, whatever else they return. -/
inductive Agree {α β : Type} (V : α → β → Prop) : α × Option Err → β × Option Err → Prop
  | ok {a : α} {b : β} (h : V a b) : Agree V (a, none) (b, none)
  | error {a : α} {b : β} {err err' : Err} (h : err.SameClass err') :
      Agree V (a, some err) (b, some err')

theorem Agree.of_eq {α : Type} {r r' : α × Option Err} (h : r = r') : Agree Eq r r' := by
  subst h
  obtain ⟨a, err⟩ := r
  cases err with
  | none => exact .ok rfl
  | some err => exact .error (.refl err)

/-- The same entries, then the same class of error. -/
structure Listing.Same (listing listing' : Listing) : Prop where
  entries : listing.entries = listing'.entries
  err : SameError listing.err listing'.err

theorem Listing.Same.refl (listing : Listing) : listing.Same listing := ⟨rfl, .refl _⟩

theorem Listing.Same.trans {l l' l'' : Listing} (h : l.Same l') (h' : l'.Same l'') : l.Same l'' :=
  ⟨h.entries.trans h'.entries, h.err.trans h'.err⟩

inductive Result.Same : Result → Result → Prop
  | done {err err' : Option Err} (h : SameError err err') : Same (.done err) (.done err')
  | stream {r r' : Stream × Option Err} (h : Agree Eq r r') :
      Same (.stream r.1 r.2) (.stream r'.1 r'.2)
  | metadata {r r' : Metadata × Option Err} (h : Agree Eq r r') :
      Same (.metadata r.1 r.2) (.metadata r'.1 r'.2)
  | listing {r r' : Listing × Option Err} (h : Agree Listing.Same r r') :
      Same (.listing r.1 r.2) (.listing r'.1 r'.2)
  | checksum {r r' : Checksum × Option Err} (h : Agree Eq r r') :
      Same (.checksum r.1 r.2) (.checksum r'.1 r'.2)
  | visibility {r r' : Visibility × Option Err} (h : Agree Eq r r') :
      Same (.visibility r.1 r.2) (.visibility r'.1 r'.2)
  | url {r r' : Str × Option Err} (h : Agree Eq r r') : Same (.url r.1 r.2) (.url r'.1 r'.2)
  | handle (handle : Nat) : Same (.handle handle) (.handle handle)
  | noHandle : Same .noHandle .noHandle

theorem Agree.sameError {α β : Type} {V : α → β → Prop} {r : α × Option Err} {r' : β × Option Err}
    (h : Agree V r r') : SameError r.2 r'.2 := by
  cases h with
  | ok _ => exact .none
  | error herr => exact .some herr

theorem Result.Same.error {result result' : Result} (h : result.Same result') :
    SameError result.error result'.error := by
  cases h with
  | done herr => exact herr
  | handle _ => exact .none
  | noHandle => exact .none
  | _ hr => exact hr.sameError

/-! ## Adapters -/

section Adapters

variable {σ τ : Type} (X : Env → Env → Prop) (L : Env → Env → Frame σ → Frame τ → Prop)
  (R : Frame σ → Frame τ → Prop) (A : Op → Prop)

def Writer.Agrees (writer : Writer σ) (writer' : Writer τ) : Prop :=
  ∀ source, Call.Related X R SameError (writer.consume source) (writer'.consume source)

/-- Errors of the same class, or two writers that publish alike. -/
inductive OpensAgreeing : Except Err (Writer σ) → Except Err (Writer τ) → Prop
  | error {err err' : Err} (h : err.SameClass err') : OpensAgreeing (.error err) (.error err')
  | ok {writer : Writer σ} {writer' : Writer τ} (h : writer.Agrees X R writer') :
      OpensAgreeing (.ok writer) (.ok writer')

/-- Called alike for the operations in `A`, the two adapters return the same. -/
structure Backend.Agrees (b : Backend σ) (b' : Backend τ) : Prop where
  openPath : ∀ path, A (.openPath path) →
    Call.Related X R (Agree Eq) (b.openPath path) (b'.openPath path)
  openRange : ∀ path byteRange, A (.openRange path byteRange) →
    Call.Related X R (Agree Eq) (b.openRange path byteRange) (b'.openRange path byteRange)
  write : ∀ path source options, A (.write path source options) →
    Call.Related X R (Agree Eq) (b.write path source options) (b'.write path source options)
  openWriter : ∀ path options, A (.openWriter path options) →
    Call.Related X R (OpensAgreeing X R) (b.openWriter path options) (b'.openWriter path options)
  delete : ∀ path, A (.delete path) →
    Call.Related X R SameError (b.delete path) (b'.delete path)
  list : ∀ directory options, A (.list directory options) → ∀ env env' frame frame',
    X env env' → L env env' frame frame' → R frame frame' →
      Call.RelOutcome (Agree Listing.Same) R (b.list directory options env frame)
        (b'.list directory options env' frame')
  stat : ∀ path, A (.stat path) → Call.Related X R (Agree Eq) (b.stat path) (b'.stat path)
  copy : ∀ source destination options, A (.copy source destination options) →
    Call.Related X R SameError (b.copy source destination options)
      (b'.copy source destination options)
  move : ∀ source destination options, A (.move source destination options) →
    Call.Related X R SameError (b.move source destination options)
      (b'.move source destination options)
  setMetadata : ∀ path metadata, A (.setMetadata path metadata) →
    Call.Related X R SameError (b.setMetadata path metadata) (b'.setMetadata path metadata)
  checksum : ∀ path algorithm, A (.checksum path algorithm) →
    Call.Related X R (Agree Eq) (b.checksum path algorithm) (b'.checksum path algorithm)
  visibility : ∀ path, A (.visibility path) →
    Call.Related X R (Agree Eq) (b.visibility path) (b'.visibility path)
  setVisibility : ∀ path visibility, A (.setVisibility path visibility) →
    Call.Related X R SameError (b.setVisibility path visibility)
      (b'.setVisibility path visibility)
  temporaryURL : ∀ path lifetime options, A (.temporaryURL path lifetime options) →
    Option.Rel (fun sign sign' ↦ Call.Related X R (Agree Eq) (sign path lifetime options)
      (sign' path lifetime options)) b.temporaryURL b'.temporaryURL

structure OpenWriter.Agrees (opened : OpenWriter σ) (opened' : OpenWriter τ) : Prop where
  writer : opened.writer.Agrees X R opened'.writer
  result : Option.Rel SameError opened.result opened'.result

abbrev WritersAgree (writers : List (OpenWriter σ)) (writers' : List (OpenWriter τ)) : Prop :=
  List.Forall₂ (OpenWriter.Agrees X R) writers writers'

structure CallAgrees (r : Result × List (OpenWriter σ)) (r' : Result × List (OpenWriter τ)) :
    Prop where
  result : r.1.Same r'.1
  writers : WritersAgree X R r.2 r'.2

end Adapters

/-! ## Clients -/

section Clients

variable {σ τ : Type} {X : Env → Env → Prop} {L : Env → Env → Frame σ → Frame τ → Prop}
  {R : Frame σ → Frame τ → Prop} {A : Op → Prop} {b : Backend σ} {b' : Backend τ}
  {writers : List (OpenWriter σ)} {writers' : List (OpenWriter τ)}

theorem close_agrees (hw : WritersAgree X R writers writers') (handle : Nat) (chunks : List Str) :
    Call.Related X R (CallAgrees X R) (Client.close writers handle chunks)
      (Client.close writers' handle chunks) := by
  have hget := forall₂_getElem? hw handle
  unfold Client.close
  cases hwriter : writers[handle]? with
  | none =>
      cases hwriter' : writers'[handle]? with
      | none => exact .pure ⟨.noHandle, hw⟩
      | some opened' => rw [hwriter, hwriter'] at hget; nomatch hget
  | some opened =>
      cases hwriter' : writers'[handle]? with
      | none => rw [hwriter, hwriter'] at hget; nomatch hget
      | some opened' =>
          rw [hwriter, hwriter'] at hget
          obtain ⟨hopened⟩ := hget
          have hresult := hopened.result
          dsimp only
          cases hfirst : opened.result with
          | none =>
              cases hfirst' : opened'.result with
              | some err' => rw [hfirst, hfirst'] at hresult; nomatch hresult
              | none =>
                  refine (hopened.writer _).bind fun err err' herr ↦ .pure ⟨.done herr, ?_⟩
                  exact forall₂_set hw handle ⟨hopened.writer, .some herr⟩
          | some err =>
              cases hfirst' : opened'.result with
              | none => rw [hfirst, hfirst'] at hresult; nomatch hresult
              | some err' =>
                  rw [hfirst, hfirst'] at hresult
                  obtain ⟨herr⟩ := hresult
                  exact .pure ⟨.done herr, hw⟩

/-- One operation of two clients. -/
theorem call_agrees (hb : b.Agrees X L R A b') (hw : WritersAgree X R writers writers') {op : Op}
    (hop : A op) {env env' : Env} {frame : Frame σ} {frame' : Frame τ} (henv : X env env')
    (hlist : L env env' frame frame') (hframe : R frame frame') :
    Call.RelOutcome (CallAgrees X R) R (Client.call b writers op env frame)
      (Client.call b' writers' op env' frame') := by
  -- most operations return what the method returns and keep the writers
  have keeps : ∀ {α β : Type} {V : α → β → Prop} {x : Method σ α} {y : Method τ β}
      (f : α → Result) (g : β → Result), (∀ a b, V a b → (f a).Same (g b)) →
      Call.RelOutcome V R (x env frame) (y env' frame') →
      Call.RelOutcome (CallAgrees X R) R ((x >>= fun a ↦ pure (f a, writers)) env frame)
        ((y >>= fun b ↦ pure (g b, writers')) env' frame') := by
    intro α β V x y f g hfg h
    exact h.bind fun a b _ _ hv hr ↦ ⟨⟨hfg a b hv, hw⟩, hr⟩
  have run : ∀ {α β : Type} {V : α → β → Prop} {x : Method σ α} {y : Method τ β},
      Call.Related X R V x y → Call.RelOutcome V R (x env frame) (y env' frame') :=
    fun h ↦ h env env' frame frame' henv hframe
  cases op with
  | openPath path =>
      exact keeps _ _ (fun _ _ ↦ .stream) (run (hb.openPath path hop))
  | openRange path byteRange =>
      exact keeps _ _ (fun _ _ ↦ .stream) (run (hb.openRange path byteRange hop))
  | write path source options =>
      exact keeps _ _ (fun _ _ ↦ .metadata) (run (hb.write path source options hop))
  | openWriter path options =>
      refine (run (hb.openWriter path options hop)).bind fun r r' _ _ hr hr' ↦ ?_
      cases hr with
      | error herr => exact ⟨⟨.done (.some herr), hw⟩, hr'⟩
      | ok hwriter =>
          refine ⟨⟨?_, List.rel_append hw (.cons ⟨hwriter, .none⟩ .nil)⟩, hr'⟩
          rw [hw.length_eq]
          exact .handle _
  | closeWriter handle chunks => exact run (close_agrees hw handle chunks)
  | delete path => exact keeps _ _ (fun _ _ ↦ .done) (run (hb.delete path hop))
  | list directory options =>
      exact keeps _ _ (fun _ _ ↦ .listing)
        (hb.list directory options hop env env' frame frame' henv hlist hframe)
  | stat path => exact keeps _ _ (fun _ _ ↦ .metadata) (run (hb.stat path hop))
  | copy source destination options =>
      exact keeps _ _ (fun _ _ ↦ .done) (run (hb.copy source destination options hop))
  | move source destination options =>
      exact keeps _ _ (fun _ _ ↦ .done) (run (hb.move source destination options hop))
  | setMetadata path metadata =>
      exact keeps _ _ (fun _ _ ↦ .done) (run (hb.setMetadata path metadata hop))
  | checksum path algorithm =>
      exact keeps _ _ (fun _ _ ↦ .checksum) (run (hb.checksum path algorithm hop))
  | visibility path => exact keeps _ _ (fun _ _ ↦ .visibility) (run (hb.visibility path hop))
  | setVisibility path visibility =>
      exact keeps _ _ (fun _ _ ↦ .done) (run (hb.setVisibility path visibility hop))
  | temporaryURL path lifetime options =>
      have hsign := hb.temporaryURL path lifetime options hop
      unfold Client.call
      cases hurl : b.temporaryURL with
      | none =>
          cases hurl' : b'.temporaryURL with
          | none => exact ⟨⟨.noHandle, hw⟩, hframe⟩
          | some sign' => rw [hurl, hurl'] at hsign; nomatch hsign
      | some sign =>
          cases hurl' : b'.temporaryURL with
          | none => rw [hurl, hurl'] at hsign; nomatch hsign
          | some sign' =>
              rw [hurl, hurl'] at hsign
              obtain ⟨hsign⟩ := hsign
              exact keeps _ _ (fun _ _ ↦ .url) (run hsign)

/-- Two clients in step: their states are related by `I` and, as long as the
environments of the steps correspond (`C`), both return, and what they return is
the same. -/
def InStep (C : Env → Env → σ → τ → Prop) (I : σ → τ → Prop) (b : Backend σ) (b' : Backend τ) :
    List (Op × Env × Env) → Client σ → Client τ → Prop
  | [], client, client' => I client.store client'.store
  | (op, env, env') :: steps, client, client' =>
    I client.store client'.store ∧ (C env env' client.store client'.store →
      ∃ result events next result' events' next',
        Client.perform b op env client = some (result, events, next) ∧
        Client.perform b' op env' client' = some (result', events', next') ∧
        result.Same result' ∧ InStep C I b b' steps next next')

/-- Adapters that return the same keep their clients in step, if one of them
does not panic. -/
theorem inStep_of_agrees {C : Env → Env → σ → τ → Prop} {I : σ → τ → Prop}
    {D : Call.Discipline τ} {B : Access} (hb : b.Agrees X L R A b') (hobeys : b'.Obeys D B)
    (hD : ¬D.mayPanic) (hpre : ∀ {s s'}, I s s' → D.pre s')
    (hAB : ∀ {op}, A op → op.Allowed B)
    (hC : ∀ {env env' s s'}, C env env' s s' → X env env' ∧
      L env env' { store := s } { store := s' })
    (hstart : ∀ {s s'}, I s s' → R { store := s } { store := s' })
    (hend : ∀ {frame frame'}, R frame frame' → I frame.store frame'.store)
    {steps : List (Op × Env × Env)} (hsteps : ∀ step ∈ steps, A step.1) {client : Client σ}
    {client' : Client τ} (hI : I client.store client'.store)
    (hw : WritersAgree X R client.writers client'.writers)
    (hw' : WritersObey D client'.writers) : InStep C I b b' steps client client' := by
  induction steps generalizing client client' with
  | nil => exact hI
  | cons step steps ih =>
      obtain ⟨op, env, env'⟩ := step
      rw [List.forall_mem_cons] at hsteps
      refine ⟨hI, fun henv ↦ ?_⟩
      obtain ⟨hX, hL⟩ := hC henv
      have hout := call_agrees hb hw hsteps.1 hX hL (hstart hI)
      obtain ⟨r', frame', hcall', -, hobeyed⟩ :=
        (call_obeys hobeys hw' (hAB hsteps.1)).returns hD env' (s := { store := client'.store })
          (hpre hI)
      cases hcall : Client.call b client.writers op env { store := client.store } with
      | none => rw [hcall, hcall'] at hout; exact hout.elim
      | some p =>
          obtain ⟨r, frame⟩ := p
          rw [hcall, hcall'] at hout
          obtain ⟨⟨hresult, hwriters⟩, hframe⟩ := hout
          exact ⟨_, _, _, _, _, _, Client.perform_of_call hcall, Client.perform_of_call hcall',
            hresult, ih hsteps.2 (hend hframe) hwriters hobeyed⟩

end Clients

end GoFilesystem
