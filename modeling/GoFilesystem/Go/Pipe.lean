import GoFilesystem.Conc.Logic
import Mathlib.Data.List.Basic

/-!
# Pipes

An `io.Pipe` with one reader and one writer at a time.  Writing is a rendezvous:
the writer offers its bytes and waits until they are taken, each read takes as
many of the offered bytes as it has room for, and a write of no bytes still
waits for one read.  Either end may be closed with an error; the first error of
each end counts.  Closing wakes both ends, but an end that was waiting already
may still complete a rendezvous instead.

`Cmd` are the atomic steps of the two ends, `apply` their effect on the state of
the pipe, and `read` and `write` the methods as programs over any signature that
has these steps.  `transferred` is a history variable: all bytes that readers
have taken.
-/

namespace GoFilesystem.Go.Pipe

open Conc

/-- The two error values of the `io` package that a pipe reports by itself. -/
class Errors (ε : Type) where
  eof : ε
  closedPipe : ε

variable {α ε : Type}

/-- What the writer has on offer: nothing, bytes that wait for a reader, or the
count of bytes that a reader has taken and the writer does not know of yet. -/
inductive Offer (α : Type) where
  | nothing
  | pending (bytes : List α)
  | taken (count : Nat)
deriving DecidableEq

structure State (α ε : Type) where
  offer : Offer α := .nothing
  done : Bool := false
  rerr : Option ε := none
  werr : Option ε := none
  transferred : List α := []
deriving DecidableEq

namespace State

variable [Errors ε] (p : State α ε)

/-- `readCloseError`. -/
def readCloseError : ε :=
  match p.rerr, p.werr with
  | none, some werr => werr
  | _, _ => Errors.closedPipe

/-- `writeCloseError`. -/
def writeCloseError : ε :=
  match p.werr, p.rerr with
  | none, some rerr => rerr
  | _, _ => Errors.closedPipe

/-- `closeRead`. -/
def closeRead (err : Option ε) : State α ε :=
  { p with rerr := p.rerr <|> some (err.getD Errors.closedPipe), done := true }

/-- `closeWrite`. -/
def closeWrite (err : Option ε) : State α ε :=
  { p with werr := p.werr <|> some (err.getD Errors.eof), done := true }

end State

/-- The atomic steps of the two ends. -/
inductive Cmd (α ε : Type) where
  /-- The first look of a read at whether the pipe is closed. -/
  | enterRead
  /-- Take offered bytes, or notice that the pipe is closed. -/
  | receive
  /-- The first look of a write at whether the pipe is closed. -/
  | enterWrite
  /-- Offer bytes. -/
  | offer (bytes : List α)
  /-- Learn how many were taken, or notice that the pipe is closed. -/
  | await
  /-- Close the reading end. -/
  | closeRead (err : Option ε)
  /-- Close the writing end. -/
  | closeWrite (err : Option ε)

@[reducible] def Cmd.Resp : Cmd α ε → Type
  | .enterRead | .enterWrite => Option ε
  | .receive => Except ε (List α)
  | .await => Except ε Nat
  | .offer _ | .closeRead _ | .closeWrite _ => Unit

variable [DecidableEq α] [DecidableEq ε] [Errors ε]

def apply : (c : Cmd α ε) → c.Resp → State α ε → Option (State α ε)
  | .enterRead, (r : Option ε), p =>
    if r = if p.done then some p.readCloseError else none then some p else none
  | .receive, (r : Except ε (List α)), p =>
    match r, p.offer with
    | .ok data, .pending bytes =>
      if data <+: bytes then
        some { p with offer := .taken data.length, transferred := p.transferred ++ data }
      else none
    | .ok _, _ => none
    | .error err, _ => if p.done ∧ err = p.readCloseError then some p else none
  | .enterWrite, (r : Option ε), p =>
    if r = if p.done then some p.writeCloseError else none then some p else none
  | .offer bytes, _, p =>
    match p.offer with
    | .nothing => some { p with offer := .pending bytes }
    | _ => none
  | .await, (r : Except ε Nat), p =>
    match r, p.offer with
    | .ok count, .taken count' =>
      if count = count' then some { p with offer := .nothing } else none
    | .error err, .pending _ =>
      if p.done ∧ err = p.writeCloseError then some { p with offer := .nothing } else none
    | _, _ => none
  | .closeRead err, _, p => some (p.closeRead err)
  | .closeWrite err, _, p => some (p.closeWrite err)

/-! ## What each step can do -/

section Inversion

variable {p p' : State α ε}

theorem apply_enterRead {r : Option ε} (h : apply (α := α) .enterRead r p = some p') :
    p' = p ∧ r = if p.done then some p.readCloseError else none := by
  obtain ⟨hr, hs⟩ := of_ite_some h
  exact ⟨hs.symm, hr⟩

theorem apply_receive_ok {data : List α} (h : apply (ε := ε) .receive (.ok data) p = some p') :
    ∃ bytes, p.offer = .pending bytes ∧ data <+: bytes ∧
      p' = { p with offer := .taken data.length, transferred := p.transferred ++ data } := by
  dsimp only [apply] at h
  split at h
  · rename_i data' bytes heq hoffer
    cases heq
    split at h
    · exact ⟨bytes, hoffer, ‹_›, (Option.some.inj h).symm⟩
    · contradiction
  · contradiction
  · contradiction

theorem apply_receive_error {err : ε} (h : apply (α := α) .receive (.error err) p = some p') :
    p' = p ∧ p.done ∧ err = p.readCloseError := by
  obtain ⟨hr, hs⟩ := of_ite_some h
  exact ⟨hs.symm, hr⟩

theorem apply_enterWrite {r : Option ε} (h : apply (α := α) .enterWrite r p = some p') :
    p' = p ∧ r = if p.done then some p.writeCloseError else none := by
  obtain ⟨hr, hs⟩ := of_ite_some h
  exact ⟨hs.symm, hr⟩

theorem apply_offer {bytes : List α} {r : Unit}
    (h : apply (ε := ε) (.offer bytes) r p = some p') :
    p.offer = .nothing ∧ p' = { p with offer := .pending bytes } := by
  dsimp only [apply] at h
  split at h
  · exact ⟨‹_›, (Option.some.inj h).symm⟩
  · contradiction

theorem apply_await_ok {count : Nat} (h : apply (α := α) (ε := ε) .await (.ok count) p = some p') :
    p.offer = .taken count ∧ p' = { p with offer := .nothing } := by
  dsimp only [apply] at h
  split at h
  · rename_i count' count'' heq hoffer
    cases heq
    split at h
    · rename_i hcount
      exact ⟨hcount ▸ hoffer, (Option.some.inj h).symm⟩
    · contradiction
  · contradiction
  · contradiction

theorem apply_await_error {err : ε} (h : apply (α := α) .await (.error err) p = some p') :
    ∃ bytes, p.offer = .pending bytes ∧ p.done ∧ err = p.writeCloseError ∧
      p' = { p with offer := .nothing } := by
  dsimp only [apply] at h
  split at h
  · contradiction
  · rename_i err' bytes heq hoffer
    cases heq
    split at h
    · rename_i hclosed
      exact ⟨bytes, hoffer, hclosed.1, hclosed.2, (Option.some.inj h).symm⟩
    · contradiction
  · contradiction

end Inversion

section Programs

variable {S : Sig} (step : (c : Cmd α ε) → Prog S c.Resp)

/-- `PipeReader.Read`: some bytes, or the error that ends the stream. -/
def read : Prog S (Except ε (List α)) := do
  match ← step .enterRead with
  | some err => return .error err
  | none => step .receive

/-- The loop of `PipeWriter.Write`: the bytes still to be written, and how many
have been. -/
def writeFrom (bytes : List α) (count : Nat) : Prog S (Nat × Option ε) :=
  Prog.loop (fun (bytes, count) ↦ do
    step (.offer bytes)
    match (← step .await : Except ε Nat) with
    | .error err => return .inr (count, some err)
    | .ok taken =>
      let rest := bytes.drop taken
      if rest = [] then return .inr (count + taken, none)
      else return .inl (rest, count + taken)) (bytes, count)

/-- `PipeWriter.Write`. -/
def write (bytes : List α) : Prog S (Nat × Option ε) := do
  match ← step .enterWrite with
  | some err => return (0, some err)
  | none => writeFrom step bytes 0

end Programs

/-! ## The writing end -/

/-- Nothing is on offer, and `sent` has been transferred. -/
def Idle (sent : List α) (p : State α ε) : Prop :=
  p.offer = .nothing ∧ p.transferred = sent

/-- After `sent` was transferred, `bytes` were offered; a part may have been
taken. -/
def Offering (sent bytes : List α) (p : State α ε) : Prop :=
  (p.offer = .pending bytes ∧ p.transferred = sent) ∨
    ∃ count ≤ bytes.length, p.offer = .taken count ∧ p.transferred = sent ++ bytes.take count

/-- What everyone but the writing end does: read, or close either end. -/
inductive Foreign : State α ε → State α ε → Prop
  | same (p) : Foreign p p
  | receive {p p' data} (h : apply .receive (.ok data) p = some p') : Foreign p p'
  | closeRead (p err) : Foreign p (p.closeRead err)
  | closeWrite (p err) : Foreign p (p.closeWrite err)

section Foreign

variable {p p' : State α ε} {sent bytes : List α}

theorem Foreign.idle (h : Foreign p p') (hp : Idle sent p) : Idle sent p' := by
  cases h with
  | same => exact hp
  | receive h =>
      obtain ⟨bytes, hoffer, -, -⟩ := apply_receive_ok h
      rw [hp.1] at hoffer
      contradiction
  | closeRead => exact hp
  | closeWrite => exact hp

theorem Foreign.offering (h : Foreign p p') (hp : Offering sent bytes p) :
    Offering sent bytes p' := by
  cases h with
  | same => exact hp
  | @receive _ data h =>
      obtain ⟨bytes', hoffer, hdata, rfl⟩ := apply_receive_ok h
      rcases hp with ⟨hpending, hsent⟩ | ⟨count, -, htaken, -⟩
      · rw [hpending] at hoffer
        cases hoffer
        refine .inr ⟨data.length, hdata.length_le, rfl, ?_⟩
        change p.transferred ++ data = sent ++ bytes.take data.length
        rw [hsent, ← List.prefix_iff_eq_take.mp hdata]
      · rw [htaken] at hoffer
        contradiction
  | closeRead => exact hp
  | closeWrite => exact hp

theorem Foreign.done (h : Foreign p p') (hp : p.done = true) : p'.done = true := by
  cases h with
  | same => exact hp
  | receive h =>
      obtain ⟨-, -, -, rfl⟩ := apply_receive_ok h
      exact hp
  | closeRead => rfl
  | closeWrite => rfl

end Foreign

section WriterEnd

variable {S : Sig} {Tid St : Type} {M : Machine S Tid St}

/-- Thread `t` has the writing end of a pipe to itself: the other threads are
foreign to it, and the steps of the writing end are steps of the pipe that keep
`X`. -/
structure WriterEnd (P : Protocol M) (t : Tid) (pipe : St → State α ε)
    (step : (c : Cmd α ε) → Prog S c.Resp) (X : St → Prop) : Prop where
  others : ∀ t' ≠ t, ∀ c r s s', P.Inv s → P.Inv s' → P.Guar t' c r s s' →
    Foreign (pipe s) (pipe s')
  stable : P.Stable t X
  run : ∀ c : Cmd α ε, (c = .enterWrite ∨ c = .await ∨ ∃ bytes, c = .offer bytes) →
    ∀ {L : St → Prop} {Q : c.Resp → St → Prop}, (∀ r, P.Stable t (Q r)) →
      (∀ s r s', P.Inv s → L s → apply c r (pipe s) = some (pipe s') → Q r s') →
      P.Triple t (step c) (fun s ↦ L s ∧ X s) fun r s ↦ Q r s ∧ X s

variable {P : Protocol M} {t : Tid} {pipe : St → State α ε}
  {step : (c : Cmd α ε) → Prog S c.Resp} {X : St → Prop}

theorem WriterEnd.stable_pipe (h : WriterEnd P t pipe step X) {A : State α ε → Prop}
    (hA : ∀ p p', Foreign p p' → A p → A p') : P.Stable t fun s ↦ A (pipe s) := by
  intro t' ht c r s s' hs hs' hguar ha
  exact hA _ _ (h.others t' ht c r s s' hs hs' hguar) ha

/-- What is known after a write: how much was transferred, and whether the pipe
is closed. -/
def Wrote (sent bytes : List α) (r : Nat × Option ε) (p : State α ε) : Prop :=
  Idle (sent ++ bytes.take r.1) p ∧
    match r.2 with
    | none => r.1 = bytes.length
    | some _ => p.done = true

theorem Foreign.wrote {p p' : State α ε} (h : Foreign p p') {sent bytes : List α}
    {r : Nat × Option ε} (hp : Wrote sent bytes r p) : Wrote sent bytes r p' := by
  obtain ⟨count, err⟩ := r
  refine ⟨h.idle hp.1, ?_⟩
  cases err with
  | none => exact hp.2
  | some err => exact h.done hp.2

/-- One round of the loop of `Write`. -/
theorem WriterEnd.round (h : WriterEnd P t pipe step X) (sent bytes : List α) (count : Nat)
    (hcount : count ≤ bytes.length) :
    P.Triple t (do
        let _ ← step (.offer (bytes.drop count))
        step .await)
      (fun s ↦ Idle (sent ++ bytes.take count) (pipe s) ∧ X s)
      fun r s ↦ (match (r : Except ε Nat) with
        | .ok taken => count + taken ≤ bytes.length ∧
            Idle (sent ++ bytes.take (count + taken)) (pipe s)
        | .error _ => Idle (sent ++ bytes.take count) (pipe s) ∧ (pipe s).done = true) ∧ X s := by
  refine Protocol.Triple.bind (h.run (.offer (bytes.drop count)) (.inr (.inr ⟨_, rfl⟩))
    (Q := fun _ s ↦ Offering (sent ++ bytes.take count) (bytes.drop count) (pipe s)) ?_ ?_) ?_
  · exact fun _ ↦ h.stable_pipe fun _ _ hforeign ↦ hforeign.offering
  · intro s r s' _ hidle happly
    obtain ⟨-, hs'⟩ := apply_offer happly
    rw [hs']
    exact .inl ⟨rfl, hidle.2⟩
  · intro _
    refine h.run .await (.inr (.inl rfl)) (Q := fun r s ↦ match (r : Except ε Nat) with
        | .ok taken => count + taken ≤ bytes.length ∧
            Idle (sent ++ bytes.take (count + taken)) (pipe s)
        | .error _ => Idle (sent ++ bytes.take count) (pipe s) ∧ (pipe s).done = true) ?_ ?_
    · rintro (err | taken)
      · exact h.stable_pipe (A := fun p ↦ Idle _ p ∧ p.done = true) fun _ _ hforeign hp ↦
          ⟨hforeign.idle hp.1, hforeign.done hp.2⟩
      · exact h.stable_pipe (A := fun p ↦ _ ∧ Idle _ p) fun _ _ hforeign hp ↦
          ⟨hp.1, hforeign.idle hp.2⟩
    · rintro s (err | taken) s' - hoffering happly
      · obtain ⟨bytes', hpending, hdone, -, hs'⟩ := apply_await_error happly
        rcases hoffering with ⟨-, hsent⟩ | ⟨n, -, htaken, -⟩
        · rw [hs']
          exact ⟨⟨rfl, hsent⟩, hdone⟩
        · rw [htaken] at hpending
          contradiction
      · obtain ⟨htaken, hs'⟩ := apply_await_ok happly
        rcases hoffering with ⟨hpending, -⟩ | ⟨n, hn, htaken', hsent⟩
        · rw [hpending] at htaken
          contradiction
        · rw [htaken'] at htaken
          cases htaken
          rw [List.length_drop] at hn
          refine ⟨by omega, ?_⟩
          rw [hs']
          refine ⟨rfl, ?_⟩
          rw [List.take_add, ← List.append_assoc]
          exact hsent

/-- `Write` transfers all of its bytes, or finds the pipe closed. -/
theorem WriterEnd.write (h : WriterEnd P t pipe step X) (sent bytes : List α) :
    P.Triple t (write step bytes) (fun s ↦ Idle sent (pipe s) ∧ X s)
      fun r s ↦ Wrote sent bytes r (pipe s) ∧ X s := by
  refine Protocol.Triple.bind (h.run .enterWrite (.inl rfl)
    (Q := fun r s ↦ Idle sent (pipe s) ∧ ((r : Option ε).isSome → (pipe s).done = true)) ?_ ?_) ?_
  · exact fun r ↦ h.stable_pipe (A := fun p ↦ Idle sent p ∧ (_ → p.done = true))
      fun _ _ hforeign hp ↦ ⟨hforeign.idle hp.1, fun hr ↦ hforeign.done (hp.2 hr)⟩
  · intro s r s' _ hidle happly
    obtain ⟨hs', hr⟩ := apply_enterWrite happly
    rw [hs']
    refine ⟨hidle, fun hsome ↦ ?_⟩
    by_contra hdone
    rw [hr, if_neg hdone] at hsome
    contradiction
  · rintro (_ | err)
    · let J : List α × Nat → St → Prop := fun i s ↦ (i.1 = bytes.drop i.2 ∧ i.2 ≤ bytes.length) ∧
        Idle (sent ++ bytes.take i.2) (pipe s) ∧ X s
      refine (Protocol.Triple.loop J ?_ ?_ ?_ (bytes, 0)).pre ?_
      · intro i
        refine .and (fun _ _ _ _ _ _ _ _ _ hi ↦ hi) (.and ?_ h.stable)
        exact h.stable_pipe fun _ _ hforeign ↦ hforeign.idle
      · exact fun _ ↦ (h.stable_pipe fun _ _ hforeign ↦ hforeign.wrote).and h.stable
      · rintro ⟨rest, count⟩
        refine .of_fact ?_
        intro hfact
        dsimp only at hfact
        obtain ⟨rfl, hcount⟩ := hfact
        dsimp only
        rw [← bind_assoc]
        refine (h.round sent bytes count hcount).bind ?_
        rintro (err | taken)
        · exact .ret fun s _ hs ↦ ⟨hs.1, hs.2⟩
        · dsimp only
          split
          · rename_i hrest
            refine .ret fun s _ hs ↦ ⟨⟨hs.1.2, ?_⟩, hs.2⟩
            rw [List.drop_drop, List.drop_eq_nil_iff] at hrest
            exact Nat.le_antisymm hs.1.1 hrest
          · exact .ret fun s _ hs ↦ ⟨⟨List.drop_drop, hs.1.1⟩, hs.1.2, hs.2⟩
      · intro s _ hs
        exact ⟨⟨rfl, Nat.zero_le _⟩, by simpa using hs.1.1, hs.2⟩
    · refine .ret fun s _ hs ↦ ⟨⟨by simpa using hs.1.1, hs.1.2 rfl⟩, hs.2⟩

end WriterEnd

end GoFilesystem.Go.Pipe
