import GoFilesystem.Conc.Solo

/-!
# More commands

A signature can be extended by more commands.  A program over it then does in the
larger signature what it did before (`Prog.extend`), and ensures the same if the world
answers its commands as before.
-/

namespace GoFilesystem.Conc

variable {S : Sig} {W α : Type} {C : Type} {R : C → Type}

/-- A signature with more commands. -/
@[reducible] def Sig.extend (S : Sig) (C : Type) (R : C → Type) : Sig :=
  ⟨S.Cmd ⊕ C, Sum.rec S.Resp R⟩

def Prog.extend : {α : Type} → Prog S α → Prog (S.extend C R) α
  | _, .ret a => .ret a
  | _, .call c k => .call (S := S.extend C R) (.inl c) fun r ↦ (k r).extend
  | _, .iter body i k => .iter (fun i ↦ (body i).extend) i fun b ↦ (k b).extend

variable {A : Answers S W} {B : Answers (S.extend C R) W} {live : Prop} {w : W} {Q : α → W → Prop}

theorem Ensures.extend {p : Prog S α} (h : Ensures A live p w Q)
    (hB : ∀ w c r w', B w (.inl c) r w' ↔ A w c r w') :
    Ensures B live (p.extend : Prog (S.extend C R) α) w Q := by
  induction p generalizing w with
  | ret a => exact h
  | call c k ih =>
      refine ⟨fun hlive ↦ ?_, fun r w' ha ↦ ih r (h.2 r w' ((hB ..).mp ha))⟩
      obtain ⟨r, w', ha⟩ := h.1 hlive
      exact ⟨r, w', (hB ..).mpr ha⟩
  | iter body i k ihbody ih =>
      obtain ⟨J, K, measure, hj, hbody, hk⟩ := h
      exact ⟨J, K, measure, hj, fun i w hw ↦ ihbody i (hbody i w hw),
        fun b w hw ↦ ih b (hk b w hw)⟩

end GoFilesystem.Conc
