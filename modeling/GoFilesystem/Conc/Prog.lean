import Mathlib.Control.Lawful
import Mathlib.Logic.Equiv.Defs
import Mathlib.Logic.Function.Basic
import Mathlib.Tactic.Common

/-!
# Programs and interleavings

A goroutine is a program over a signature of atomic commands: it returns, it
issues a command and continues with the response, or it runs a loop.  `Prog` is
that data type; it is a monad, so programs are written in `do` notation and read
like the code they model.

A `Machine` says how the shared state answers commands.  Responses carry all
nondeterminism: `apply t c r s` is the state after thread `t` issued `c` in `s`
and got the response `r`, or `none` if that cannot happen, in which case the
thread is blocked there.  A `Config` is a shared state with one program per
thread, and `Step` lets any thread issue its next command; entering or repeating
a loop is a step of its own that leaves the state alone.

Loops are unfolded one round at a time, so a program that loops forever has
arbitrarily long runs and no final configuration.  Nothing here says that a
thread is ever scheduled.
-/

namespace GoFilesystem.Conc

section Conditions

variable {σ : Type} {p : Prop} [Decidable p] {s s' : σ}

/-- A step that can be taken under a condition has been taken. -/
theorem of_ite_some (h : (if p then some s else none) = some s') : p ∧ s = s' :=
  (Option.ite_none_right_eq_some.mp h).imp_right Option.some.inj

theorem of_ite_none (h : (if p then none else some s) = some s') : ¬p ∧ s = s' :=
  (Option.ite_none_left_eq_some.mp h).imp_right Option.some.inj

theorem map_ite_some {τ : Type} (f : σ → τ) :
    (if p then some s else none).map f = if p then some (f s) else none := by
  split <;> rfl

end Conditions

/-- The atomic commands and the responses each can get. -/
structure Sig where
  Cmd : Type
  Resp : Cmd → Type

/-- Programs that return a value of the given type. -/
inductive Prog (S : Sig) : Type → Type 1
  | ret {α : Type} (a : α) : Prog S α
  | call {α : Type} (c : S.Cmd) (k : S.Resp c → Prog S α) : Prog S α
  | iter {ι β α : Type} (body : ι → Prog S (ι ⊕ β)) (i : ι) (k : β → Prog S α) : Prog S α

namespace Prog

variable {S : Sig} {α β γ ι : Type}

protected def bind : {α : Type} → Prog S α → (α → Prog S β) → Prog S β
  | _, ret a, f => f a
  | _, call c k, f => call c fun r ↦ Prog.bind (k r) f
  | _, iter body i k, f => iter body i fun b ↦ Prog.bind (k b) f

instance instMonad : Monad (Prog S) where
  pure := ret
  bind := Prog.bind

theorem bind_ret (p : Prog S α) : Prog.bind p ret = p := by
  induction p with
  | ret a => rfl
  | call c k ih =>
      rw [Prog.bind]
      congr 1
      funext r
      exact ih r
  | iter body i k _ ih =>
      rw [Prog.bind]
      congr 1
      funext b
      exact ih b

protected theorem bind_assoc (p : Prog S α) (f : α → Prog S β) (g : β → Prog S γ) :
    Prog.bind (Prog.bind p f) g = Prog.bind p fun a ↦ Prog.bind (f a) g := by
  induction p with
  | ret a => rfl
  | call c k ih =>
      rw [Prog.bind, Prog.bind, Prog.bind]
      congr 1
      funext r
      exact ih r f
  | iter body i k _ ih =>
      rw [Prog.bind, Prog.bind, Prog.bind]
      congr 1
      funext b
      exact ih b f

instance instLawfulMonad : LawfulMonad (Prog S) :=
  LawfulMonad.mk' (Prog S) bind_ret (fun _ _ ↦ rfl) Prog.bind_assoc

def perform (c : S.Cmd) : Prog S (S.Resp c) := call c ret

/-- Run a body until it returns a result instead of its next argument. -/
def loop (body : ι → Prog S (ι ⊕ β)) (i : ι) : Prog S β := iter body i ret

/-- One round of a loop and what follows it. -/
def unfold (body : ι → Prog S (ι ⊕ β)) (i : ι) (k : β → Prog S α) : Prog S α :=
  Prog.bind (body i) fun
    | .inl i' => iter body i' k
    | .inr b => k b

end Prog

/-- The commands of one signature among those of another. -/
structure Link (S T : Sig) where
  cmd : S.Cmd → T.Cmd
  resp : (c : S.Cmd) → T.Resp (cmd c) ≃ S.Resp c

/-- A command of the one as a program over the other. -/
def Link.perform {S T : Sig} (φ : Link S T) (c : S.Cmd) : Prog T (S.Resp c) :=
  .call (φ.cmd c) fun r ↦ .ret (φ.resp c r)

/-- How the shared state answers the commands of each thread. -/
structure Machine (S : Sig) (Tid State : Type) where
  apply : Tid → (c : S.Cmd) → S.Resp c → State → Option State

/-- A shared state and the program each thread still has to run. -/
structure Config (S : Sig) {Tid : Type} (State : Type) (R : Tid → Type) where
  state : State
  threads : (t : Tid) → Prog S (R t)

/-- What happens in one step: a command with its response, or a thread that
enters the next round of a loop. -/
inductive Label (S : Sig) (Tid : Type)
  | call (t : Tid) (c : S.Cmd) (r : S.Resp c)
  | silent (t : Tid)

def Label.thread {S : Sig} {Tid : Type} : Label S Tid → Tid
  | .call t _ _ | .silent t => t

section Semantics

variable {S : Sig} {Tid State : Type} {R : Tid → Type} [DecidableEq Tid]

/-- One step of one thread. -/
inductive Step (M : Machine S Tid State) :
    Config S State R → Label S Tid → Config S State R → Prop
  | call {s s' : State} {threads : (t : Tid) → Prog S (R t)} {t : Tid} {c : S.Cmd}
      {k : S.Resp c → Prog S (R t)} {r : S.Resp c} (hthread : threads t = .call c k)
      (happly : M.apply t c r s = some s') :
      Step M ⟨s, threads⟩ (.call t c r) ⟨s', Function.update threads t (k r)⟩
  | silent {s : State} {threads : (t : Tid) → Prog S (R t)} {t : Tid} {ι β : Type}
      {body : ι → Prog S (ι ⊕ β)} {i : ι} {k : β → Prog S (R t)}
      (hthread : threads t = .iter body i k) :
      Step M ⟨s, threads⟩ (.silent t) ⟨s, Function.update threads t (.unfold body i k)⟩

/-- A run: the labels of its steps, the last one last. -/
inductive Run (M : Machine S Tid State) (c : Config S State R) :
    List (Label S Tid) → Config S State R → Prop
  | refl : Run M c [] c
  | snoc {c' c'' : Config S State R} {trace : List (Label S Tid)} {l : Label S Tid}
      (h : Run M c trace c') (hstep : Step M c' l c'') : Run M c (trace ++ [l]) c''

variable {M : Machine S Tid State} {c c' c'' : Config S State R} {trace : List (Label S Tid)}
  {l : Label S Tid}

/-- If a property of the state has come to hold, then at one step of the run. -/
theorem Run.exists_step {J : State → Prop} (h : Run M c trace c') (hbefore : ¬J c.state)
    (hafter : J c'.state) : ∃ (trace₁ : List (Label S Tid)) (c₁ : Config S State R)
      (l : Label S Tid) (c₂ : Config S State R) (trace₂ : List (Label S Tid)),
        trace = trace₁ ++ l :: trace₂ ∧ Run M c trace₁ c₁ ∧ Step M c₁ l c₂ ∧ Run M c₂ trace₂ c' ∧
          ¬J c₁.state ∧ J c₂.state := by
  induction h with
  | refl => exact absurd hafter hbefore
  | @snoc c₁ c₂ trace l hrun hstep ih =>
      by_cases hlast : J c₁.state
      · obtain ⟨trace₁, d₁, l', d₂, trace₂, rfl, hrun₁, hstep', hrun₂, hd₁, hd₂⟩ := ih hlast
        refine ⟨trace₁, d₁, l', d₂, trace₂ ++ [l], ?_, hrun₁, hstep', hrun₂.snoc hstep, hd₁, hd₂⟩
        rw [List.append_assoc, List.cons_append]
      · exact ⟨trace, c₁, l, c₂, [], rfl, hrun, hstep, .refl, hlast, hafter⟩

theorem Run.trans {trace' : List (Label S Tid)} (h : Run M c trace c') (h' : Run M c' trace' c'') :
    Run M c (trace ++ trace') c'' := by
  induction h' with
  | refl => exact (List.append_nil trace).symm ▸ h
  | snoc _ hstep ih => exact List.append_assoc .. ▸ ih.snoc hstep

/-- A thread that has returned stays where it is. -/
theorem Run.returned (h : Run M c trace c') {t : Tid} {a : R t} (ht : c.threads t = .ret a) :
    c'.threads t = .ret a := by
  induction h with
  | refl => exact ht
  | snoc _ hstep ih =>
      cases hstep with
      | @call _ _ _ t' _ _ _ hthread _ =>
          have hne : t ≠ t' := by
            rintro rfl
            exact nomatch ih.symm.trans hthread
          exact (Function.update_of_ne hne ..).trans ih
      | @silent _ _ t' _ _ _ _ _ hthread =>
          have hne : t ≠ t' := by
            rintro rfl
            exact nomatch ih.symm.trans hthread
          exact (Function.update_of_ne hne ..).trans ih

/-- A run whose steps all satisfy a condition on the state before them. -/
inductive RunWhere (M : Machine S Tid State) (φ : State → Label S Tid → Prop)
    (c : Config S State R) : List (Label S Tid) → Config S State R → Prop
  | refl : RunWhere M φ c [] c
  | snoc {c' c'' : Config S State R} {trace : List (Label S Tid)} {l : Label S Tid}
      (h : RunWhere M φ c trace c') (hφ : φ c'.state l) (hstep : Step M c' l c'') :
      RunWhere M φ c (trace ++ [l]) c''

variable {φ : State → Label S Tid → Prop} {call : Nat → Tid} {P : Label S Tid → Prop}

theorem RunWhere.run (h : RunWhere M φ c trace c') : Run M c trace c' := by
  induction h with
  | refl => exact .refl
  | snoc _ _ hstep ih => exact ih.snoc hstep

theorem RunWhere.cons (hφ : φ c.state l) (hstep : Step M c l c') (h : RunWhere M φ c' trace c'') :
    RunWhere M φ c (l :: trace) c'' := by
  induction h with
  | refl => exact .snoc .refl hφ hstep
  | snoc _ hlastφ hlast ih => exact ih.snoc hlastφ hlast

/-- A run whose steps all satisfy a condition on the configuration before them. -/
inductive RunIf (M : Machine S Tid State) (φ : Config S State R → Label S Tid → Prop)
    (c : Config S State R) : List (Label S Tid) → Config S State R → Prop
  | refl : RunIf M φ c [] c
  | snoc {c' c'' : Config S State R} {trace : List (Label S Tid)} {l : Label S Tid}
      (h : RunIf M φ c trace c') (hφ : φ c' l) (hstep : Step M c' l c'') :
      RunIf M φ c (trace ++ [l]) c''

omit [DecidableEq Tid] in
/-- The threads `call n` take their steps one after another: each has returned before
the next one begins. -/
def InTurn (call : Nat → Tid) (c : Config S State R) (l : Label S Tid) : Prop :=
  ∀ n, l.thread = call n → ∀ m < n, ∃ r, c.threads (call m) = .ret r

/-- The thread whose turn it is goes on. -/
theorem RunIf.inTurn (hcall : Function.Injective call) {n : Nat} {trace' : List (Label S Tid)}
    (h : RunIf M (fun c l ↦ P l ∧ InTurn call c l) c trace c')
    (hbefore : ∀ m < n, ∃ r, c'.threads (call m) = .ret r)
    (h' : RunWhere M (fun _ l ↦ P l ∧ l.thread = call n) c' trace' c'') :
    RunIf M (fun c l ↦ P l ∧ InTurn call c l) c (trace ++ trace') c'' := by
  induction h' with
  | refl => exact (List.append_nil trace).symm ▸ h
  | snoc hrun hφ hstep ih =>
      refine List.append_assoc .. ▸ ih.snoc ⟨hφ.1, fun n' hn' m hm ↦ ?_⟩ hstep
      obtain rfl := hcall (hφ.2.symm.trans hn')
      obtain ⟨r, hr⟩ := hbefore m hm
      exact ⟨r, hrun.run.returned hr⟩

theorem RunWhere.inTurn (hcall : Function.Injective call)
    (h : RunWhere M (fun _ l ↦ P l ∧ l.thread = call 0) c trace c') :
    RunIf M (fun c l ↦ P l ∧ InTurn call c l) c trace c' :=
  RunIf.refl.inTurn hcall (fun m hm ↦ absurd hm m.not_lt_zero) h

/-- If each of the first threads can return and leave the state as it is, then they can
do so one after another. -/
theorem exists_runIf_inTurn (hcall : Function.Injective call) {N : Nat}
    (h : ∀ n < N, ∀ threads : (t : Tid) → Prog S (R t), threads (call n) = c.threads (call n) →
      ∃ trace a, RunWhere M (fun _ l ↦ P l ∧ l.thread = call n) ⟨c.state, threads⟩ trace
        ⟨c.state, Function.update threads (call n) (.ret a)⟩) :
    ∃ trace threads, RunIf M (fun c l ↦ P l ∧ InTurn call c l) c trace ⟨c.state, threads⟩ ∧
      (∀ m < N, ∃ r, threads (call m) = .ret r) ∧
      ∀ m ≥ N, threads (call m) = c.threads (call m) := by
  induction N with
  | zero => exact ⟨[], c.threads, .refl, fun m hm ↦ absurd hm m.not_lt_zero, fun _ _ ↦ rfl⟩
  | succ n ih =>
      obtain ⟨trace, threads, hrun, hbefore, hafter⟩ := ih fun m hm ↦ h m (Nat.lt_succ_of_lt hm)
      obtain ⟨trace', a, hrun'⟩ := h n (Nat.lt_succ_self n) threads (hafter n (Nat.le_refl n))
      refine ⟨_, _, hrun.inTurn hcall hbefore hrun', fun m hm ↦ ?_, fun m hm ↦ ?_⟩
      · rcases Nat.lt_succ_iff_lt_or_eq.mp hm with hm | rfl
        · rw [Function.update_of_ne (hcall.ne (Nat.ne_of_lt hm))]
          exact hbefore m hm
        · exact ⟨a, Function.update_self ..⟩
      · rw [Function.update_of_ne (hcall.ne (Nat.ne_of_gt hm))]
        exact hafter m (Nat.le_of_succ_le hm)

/-- The step of a thread that gets its response from `respond`. -/
def Machine.advance (M : Machine S Tid State) (respond : Tid → State → (c : S.Cmd) → S.Resp c)
    (c : Config S State R) (t : Tid) : Option (Label S Tid × Config S State R) :=
  match c.threads t with
  | .ret _ => none
  | .call cmd k =>
    let r := respond t c.state cmd
    (M.apply t cmd r c.state).map fun s ↦ (.call t cmd r, ⟨s, Function.update c.threads t (k r)⟩)
  | .iter body i k =>
    some (.silent t, ⟨c.state, Function.update c.threads t (.unfold body i k)⟩)

/-- The run in which the threads step in the given order, if the condition holds
at every step. -/
def Machine.exec (M : Machine S Tid State) (φ : State → Label S Tid → Prop)
    [∀ s l, Decidable (φ s l)] (respond : Tid → State → (c : S.Cmd) → S.Resp c) :
    List Tid → Config S State R → Option (List (Label S Tid) × Config S State R)
  | [], c => some ([], c)
  | t :: schedule, c =>
    (M.advance respond c t).bind fun (l, c') ↦
      if φ c.state l then
        (M.exec φ respond schedule c').map fun (trace, c'') ↦ (l :: trace, c'')
      else none

variable [∀ s l, Decidable (φ s l)] {respond : Tid → State → (c : S.Cmd) → S.Resp c}

omit [∀ s l, Decidable (φ s l)] in
theorem Machine.step_of_advance {t : Tid} (h : M.advance respond c t = some (l, c')) :
    Step M c l c' := by
  unfold Machine.advance at h
  split at h
  · contradiction
  · rename_i cmd k hthread
    obtain ⟨s, happly, heq⟩ := Option.map_eq_some_iff.mp h
    cases heq
    exact .call hthread happly
  · rename_i hthread
    cases h
    exact .silent hthread

theorem Machine.run_of_exec {schedule : List Tid}
    (h : M.exec φ respond schedule c = some (trace, c')) : RunWhere M φ c trace c' := by
  induction schedule generalizing c trace with
  | nil =>
      cases h
      exact .refl
  | cons t schedule ih =>
      obtain ⟨⟨l, c₁⟩, hadvance, h⟩ := Option.bind_eq_some_iff.mp h
      obtain ⟨hφ, h⟩ := Option.ite_none_right_eq_some.mp h
      obtain ⟨⟨trace, c₂⟩, hexec, heq⟩ := Option.map_eq_some_iff.mp h
      cases heq
      exact .cons hφ (step_of_advance hadvance) (ih hexec)

end Semantics

end GoFilesystem.Conc
